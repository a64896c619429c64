import FilterQuery.Expr.Evaluation
import FilterQuery.Proofs.Fields

/-!
# Proofs/Expr/Settled — expressions that come to one value everywhere

    literal ──▸ its value        [e, …] ──▸ [v, …]        { k: e, … } ──▸ { k: v, … }

A literal does not look at the world, and an array or an object looks no further than its parts do.
So an expression made of these **settles**: it comes to one value in every world and for every
runner, with the flag on or off, and the runner stays as it is.
-/

namespace FilterQuery

/-- **Merging entries once or twice makes one object.** -/
theorem Value.ofPairs_ofList (pairs : List (String × Value)) :
    ofPairs (Fields.ofList pairs) = ofPairs pairs := by
  have hmerged := (Fields.merges_self (Fields.nodup_keys_ofList pairs)).eq_ofList
  have hcongr : ∀ {fs gs : Fields Value} (hf : (Fields.keys fs).Nodup)
      (hg : (Fields.keys gs).Nodup), fs = gs →
      object (Table.ofFields fs hf) = object (Table.ofFields gs hg) := by
    rintro fs gs hf hg rfl
    rfl
  exact hcongr _ _ hmerged.symm

namespace Expr

open Runner (gather)

/-- The expression comes to the value in every world, and leaves every runner as it was. -/
def Settles (e : Expr) (v : Value) : Prop :=
  ∀ (σ : Type) (w : World σ) (flag : Bool) (r : Runner σ), e.evaluate w flag r = (.value v, r)

theorem settles_literal (v : Value) (lexeme : String) : (literal v lexeme).Settles v := by
  intro σ w flag r
  rw [evaluate]

/-- Values that are all there are gathered. -/
theorem gather_values (values : List Value) : gather (values.map Resolved.value) = some values := by
  induction values with
  | nil => rfl
  | cons v values ih =>
    rw [gather] at ih ⊢
    rw [List.map_cons, List.mapM_cons, ih]
    rfl

section Parts

variable {α : Type} {items : List α} {tree : α → Expr} {value : α → Value}

theorem evaluateAll_of_settles (h : ∀ a ∈ items, (tree a).Settles (value a)) {σ : Type}
    (w : World σ) (flag : Bool) (r : Runner σ) :
    evaluateAll w (items.map tree) flag r = ((items.map value).map Resolved.value, r) := by
  induction items with
  | nil => rfl
  | cons a items ih =>
    obtain ⟨ha, hitems⟩ := List.forall_mem_cons.1 h
    rw [List.map_cons, evaluateAll, ha σ w flag r, ih hitems]
    rfl

/-- **An array settles if its items do.** -/
theorem settles_array (h : ∀ a ∈ items, (tree a).Settles (value a)) :
    (array (items.map tree)).Settles (.array (items.map value)) := by
  intro σ w flag r
  rw [evaluate, evaluateAll_of_settles h w true r]
  simp only [resolveArray, gather_values]

theorem evaluateEntries_of_settles {key : α → String}
    (h : ∀ a ∈ items, (tree a).Settles (value a)) {σ : Type} (w : World σ) (r : Runner σ) :
    evaluateEntries w (items.map fun a => (key a, tree a)) r =
      ((items.map value).map Resolved.value, r) := by
  induction items with
  | nil => rfl
  | cons a items ih =>
    obtain ⟨ha, hitems⟩ := List.forall_mem_cons.1 h
    rw [List.map_cons, evaluateEntries, ha σ w true r, ih hitems]
    rfl

end Parts

/-- **An object settles if its values do.** -/
theorem settles_object {fields : Fields (Expr × Value)}
    (h : ∀ entry ∈ fields, entry.2.1.Settles entry.2.2) :
    (object (Fields.mapValues Prod.fst fields)).Settles
      (.ofPairs (Fields.mapValues Prod.snd fields)) := by
  intro σ w flag r
  have hkeys : Fields.keys (Fields.mapValues Prod.fst fields) = Fields.keys fields := List.map_map
  have hzip : (Fields.keys fields).zip (fields.map fun entry => entry.2.2) =
      Fields.mapValues Prod.snd fields := List.zip_map'
  rw [evaluate, Fields.mapValues, evaluateEntries_of_settles h w r]
  rw [← Fields.mapValues, hkeys]
  simp only [resolveObject, gather_values, hzip]

/-- **So does one with keys that are given again.** -/
theorem settles_ofList {entries : List (String × (Expr × Value))}
    (h : ∀ entry ∈ entries, entry.2.1.Settles entry.2.2) :
    (object (Fields.ofList (Fields.mapValues Prod.fst entries))).Settles
      (.ofPairs (Fields.mapValues Prod.snd entries)) := by
  have hmerges := Fields.merges_ofList entries
  have hobject := settles_object fun entry hentry => h entry (hmerges.subset hentry)
  rwa [Fields.mapValues_ofList, Fields.mapValues_ofList, Value.ofPairs_ofList] at hobject

end Expr

end FilterQuery
