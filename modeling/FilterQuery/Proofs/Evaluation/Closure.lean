import FilterQuery.Expr.Convergence

/-!
# Proofs/Evaluation/Closure — what holds of calls and lookups holds of evaluation

Evaluation changes a runner in two ways only: it calls a capability under a key that is new, and it
looks a member up.  So a relation between runners that both steps respect, and that is reflexive and
transitive, holds between the runners before and after every evaluation (`Closed.evaluate`), of any
expression with either flag.
-/

namespace FilterQuery

variable {σ : Type} {w : World σ} {R : Runner σ → Runner σ → Prop}

namespace Runner

/-- The relation holds over calls under new keys and over lookups, and so over sequences of them. -/
structure Closed (w : World σ) (R : Runner σ → Runner σ → Prop) : Prop where
  refl : ∀ r, R r r
  trans : ∀ {r s t}, R r s → R s t → R r t
  call : ∀ key c args r, ¬ r.Knows key → R r (r.call w key c args).2
  lookup : ∀ v name r, R r (r.lookup w v name).2

namespace Closed

theorem invoke (h : Closed w R) (key : String) (c : Capability) (args : List Value)
    (r : Runner σ) : R r (r.invoke w key c args).2 := by
  unfold Runner.invoke
  split
  · exact h.refl r
  · exact h.refl r
  · next hkey => exact h.call key c args r (by simp [Knows, hkey])

theorem member (h : Closed w R) (base : Resolved) (name : String) (r : Runner σ) :
    R r (r.member w base name).2 := by
  unfold Runner.member
  split
  · exact h.lookup _ name r
  · exact h.refl r

theorem access (h : Closed w R) (key : String) (target : Resolved) (r : Runner σ) :
    R r (r.access w key target).2 := by
  unfold Runner.access
  split
  · exact h.invoke key _ [] r
  · exact h.refl r

theorem apply (h : Closed w R) (key : String) (target : Resolved)
    {arguments : Runner σ → List Resolved × Runner σ} (hargs : ∀ r, R r (arguments r).2)
    (r : Runner σ) : R r (r.apply w key target arguments).2 := by
  unfold Runner.apply
  split
  · dsimp only
    split
    · exact h.trans (hargs r) (h.invoke key _ _ _)
    · exact hargs r
  · exact h.refl r
  · exact h.refl r

mutual

/-- **Evaluation is made of calls and lookups.** -/
theorem evaluate (h : Closed w R) : ∀ (e : Expr) (flag : Bool) (r : Runner σ),
    R r (e.evaluate w flag r).2
  | .literal _ _, _, r => h.refl r
  | .array items, _, r => h.evaluateAll items true r
  | .object entries, _, r => h.evaluateEntries entries r
  | .root name, _, r => h.trans (h.member _ name r) (h.access name _ _)
  | .step parent name, flag, r =>
    h.trans (h.trans (h.evaluate parent flag r) (h.member _ name _)) (h.access _ _ _)
  | .call (.root name) args, flag, r =>
    h.trans (h.member _ name r) (h.apply name _ (h.evaluateAll args flag) _)
  | .call (.step parent name) args, flag, r =>
    h.trans (h.trans (h.evaluate parent flag r) (h.member _ name _))
      (h.apply _ _ (h.evaluateAll args flag) _)
  | .call (.literal _ _) _, _, r | .call (.array _) _, _, r | .call (.object _) _, _, r
  | .call (.call _ _) _, _, r | .call (.comparison _ _ _) _, _, r | .call (.chain _ _) _, _, r
  | .call (.group _) _, _, r => h.refl r
  | .comparison left _ right, true, r =>
    h.trans (h.evaluate left true r) (h.evaluate right true _)
  | .comparison _ _ _, false, r => h.refl r
  | .chain _ [], _, r => h.refl r
  | .chain op (first :: more), flag, r =>
    h.trans (h.evaluate first flag r) (h.evaluateMore op more flag _ _)
  | .group inner, flag, r => h.evaluate inner flag r

theorem evaluateAll (h : Closed w R) : ∀ (es : List Expr) (flag : Bool) (r : Runner σ),
    R r (Expr.evaluateAll w es flag r).2
  | [], _, r => h.refl r
  | e :: es, flag, r => h.trans (h.evaluate e flag r) (h.evaluateAll es flag _)

theorem evaluateEntries (h : Closed w R) : ∀ (entries : List (String × Expr)) (r : Runner σ),
    R r (Expr.evaluateEntries w entries r).2
  | [], r => h.refl r
  | (_, e) :: entries, r => h.trans (h.evaluate e true r) (h.evaluateEntries entries _)

/-- A closed relation holds over the rest of a chain, however far it is evaluated. -/
theorem evaluateMore (h : Closed w R) (op : Connector) :
    ∀ (es : List Expr) (flag value : Bool) (r : Runner σ),
      R r (Expr.evaluateMore w op es flag value r).2
  | [], _, _, r => h.refl r
  | e :: es, flag, value, r => by
    unfold Expr.evaluateMore
    split
    · exact h.trans (h.evaluate e false r) (h.evaluateMore op es flag _ _)
    · exact h.trans (h.evaluate e flag r) (h.evaluateMore op es flag _ _)

end

end Closed

/-! ## Waiting -/

/-- A deferred value is waited for under some key. -/
def Waiting (r : Runner σ) : Prop :=
  ∃ key, Fields.get? r.memo key = some .pending

/-- From one runner to a later one of the same pass: no wait ends, and none begins unless an answer
has been deferred. -/
structure KeepsWaiting (r s : Runner σ) : Prop where
  total_le : r.deferredTotal ≤ s.deferredTotal
  waiting : r.Waiting → s.Waiting
  fresh : s.Waiting → r.Waiting ∨ r.deferredTotal < s.deferredTotal

theorem keepsWaiting_of_memo_eq {r s : Runner σ} (hmemo : s.memo = r.memo)
    (htotal : s.deferredTotal = r.deferredTotal) : KeepsWaiting r s where
  total_le := Nat.le_of_eq htotal.symm
  waiting h := by rwa [Waiting, hmemo]
  fresh h := by
    rw [Waiting, hmemo] at h
    exact Or.inl h

theorem keepsWaiting_call (key : String) (c : Capability) (args : List Value) (r : Runner σ)
    (hkey : ¬ r.Knows key) : KeepsWaiting r (r.call w key c args).2 := by
  have hkeep : ∀ slot, r.Waiting →
      ∃ key', Fields.get? (Fields.insert r.memo key slot) key' = some .pending := by
    rintro slot ⟨key', h⟩
    have hne : key' ≠ key := by
      rintro rfl
      exact hkey (by simp [Knows, h])
    exact ⟨key', by rwa [Fields.get?_insert, if_neg hne]⟩
  unfold Runner.call
  dsimp only
  split
  · next v hv =>
    refine ⟨Nat.le_refl _, hkeep (.ready v), ?_⟩
    rintro ⟨key', h⟩
    dsimp only at h
    rw [Fields.get?_insert] at h
    split at h
    · cases h
    · exact Or.inl ⟨key', h⟩
  · exact ⟨Nat.le_succ _, hkeep .pending, fun _ => Or.inr (Nat.lt_succ_self _)⟩

theorem keepsWaiting_lookup (v : Value) (name : String) (r : Runner σ) :
    KeepsWaiting r (r.lookup w v name).2 := by
  unfold Runner.lookup
  split <;> exact keepsWaiting_of_memo_eq rfl rfl

/-- Whatever is evaluated, a runner that waits goes on waiting. -/
theorem closed_keepsWaiting : Closed w KeepsWaiting where
  refl _ := keepsWaiting_of_memo_eq rfl rfl
  trans h h' := ⟨Nat.le_trans h.total_le h'.total_le, fun hr => h'.waiting (h.waiting hr),
    fun ht => by
      rcases h'.fresh ht with hs | hlt
      · exact (h.fresh hs).imp_right fun hlt => Nat.lt_of_lt_of_le hlt h'.total_le
      · exact Or.inr (Nat.lt_of_le_of_lt h.total_le hlt)⟩
  call := keepsWaiting_call
  lookup := keepsWaiting_lookup

end Runner

end FilterQuery
