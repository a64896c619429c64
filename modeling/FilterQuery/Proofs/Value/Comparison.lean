import FilterQuery.Operator
import FilterQuery.Proofs.Fields
import Mathlib.Data.List.Forall2
import Mathlib.Logic.ExistsUnique

/-!
# Proofs/Value/Comparison — equality and order of values agree

    v < w   v = w   v > w        exactly one of them, if the values are ordered
    v = w   ⟷   w = v            any values, at any depth
    v = v   ⟷   no NaN in v

Equality descends through arrays and objects and compares leaves (`equalBy`), so what holds of it
follows from what holds of leaves: symmetry (`equalBy_symm`, which for objects rests on their keys
being distinct), and that structural equality is the finer one (`equalBy_mono`).  The order compares
numbers, strings and truth values only, and there it goes with equality
(`looseEq_iff_of_compare?`).  Together: **the six comparators cohere** (`comparators_cohere`).
-/

namespace FilterQuery

theorem Binary64.compare?_self {x : Binary64} (h : x ≠ .nan) : x.compare? x = some .eq := by
  cases x with
  | nan => exact absurd rfl h
  | infinite negative => simp [compare?, rank]
  | finite negative mantissa shift => simp [compare?, rank]

theorem forall₂_imp_of_mem {α β : Type} {R S : α → β → Prop} {xs : List α} {ys : List β}
    (h : List.Forall₂ R xs ys) (himp : ∀ x ∈ xs, ∀ y ∈ ys, R x y → S x y) :
    List.Forall₂ S xs ys := by
  obtain ⟨hlength, hzip⟩ := List.forall₂_iff_zip.1 h
  refine List.forall₂_iff_zip.2 ⟨hlength, fun {x y} hmem => ?_⟩
  obtain ⟨hx, hy⟩ := List.of_mem_zip hmem
  exact himp x hx y hy (hzip hmem)

namespace Value

variable {leaf leaf' : Value → Value → Bool} {keys keys' : List String}

/-! ## Equality, part by part -/

/-- Arrays are equal item by item. -/
theorem itemsEqualBy_iff {xs ys : List Value} : itemsEqualBy leaf xs ys = true ↔
    List.Forall₂ (fun x y => equalBy leaf x y = true) xs ys := by
  induction xs generalizing ys with
  | nil => cases ys <;> simp [itemsEqualBy]
  | cons x xs ih => cases ys <;> simp [itemsEqualBy, ih]

/-- Objects are equal when each field of the first has an equal one in the second. -/
theorem fieldsEqualBy_iff {fs : Table Value keys} {gs : Table Value keys'} :
    fieldsEqualBy leaf fs gs = true ↔
      ∀ entry ∈ fs.entries, ∃ y, gs.get? entry.1 = some y ∧ equalBy leaf entry.2 y = true := by
  induction fs with
  | nil => simp [fieldsEqualBy, Table.entries]
  | cons key x fs _ ih =>
    rw [fieldsEqualBy, Bool.and_eq_true, ih, Table.entries, List.forall_mem_cons]
    cases gs.get? key <;> simp

/-- Arrays are equal item by item. -/
theorem equalBy_array_iff {xs ys : List Value} : equalBy leaf (array xs) (array ys) = true ↔
    List.Forall₂ (fun x y => equalBy leaf x y = true) xs ys := by
  rw [equalBy, itemsEqualBy_iff]

/-- Objects are equal if they are of one size and each entry of the first has an equal one in the
second. -/
theorem equalBy_object_iff {fs : Table Value keys} {gs : Table Value keys'} :
    equalBy leaf (object fs) (object gs) = true ↔ keys.length = keys'.length ∧
      ∀ entry ∈ fs.entries, ∃ y, gs.get? entry.1 = some y ∧ equalBy leaf entry.2 y = true := by
  rw [equalBy, Bool.and_eq_true, beq_iff_eq, fieldsEqualBy_iff]

/-- Equal objects have the same keys. -/
theorem keys_subset_of_equalBy {fs : Table Value keys} {gs : Table Value keys'}
    (h : equalBy leaf (object fs) (object gs) = true) : keys' ⊆ keys := by
  obtain ⟨hlength, hfound⟩ := equalBy_object_iff.1 h
  refine fs.keys_subset_of_length_eq (fun key hkey => ?_) hlength
  obtain ⟨entry, hentry, rfl⟩ := fs.mem_keys_iff.1 hkey
  obtain ⟨y, hget, -⟩ := hfound entry hentry
  exact gs.mem_keys_iff.2 ⟨_, Fields.mem_of_get?_eq_some hget, rfl⟩

/-- **Equality is symmetric if it is on leaves.**  Every key of the second of two equal objects is
one of the first, and the entry there has found the one that it is found by. -/
theorem equalBy_symm (hleaf : ∀ v w, leaf v w = true → leaf w v = true) {v w : Value}
    (h : equalBy leaf v w = true) : equalBy leaf w v = true := by
  induction v generalizing w with
  | array xs ih =>
    cases w with
    | array ys =>
      rw [equalBy_array_iff] at h ⊢
      have hback := forall₂_imp_of_mem h fun x hx _ _ hxy => ih x hx hxy
      exact hback.flip
    | _ => exact hleaf _ _ h
  | object fs ih =>
    cases w with
    | object gs =>
      have hkeys := keys_subset_of_equalBy h
      rw [equalBy_object_iff] at h ⊢
      obtain ⟨hlength, hfound⟩ := h
      refine ⟨hlength.symm, fun entry hentry => ?_⟩
      obtain ⟨entry', hentry', hkey⟩ :=
        fs.mem_keys_iff.1 (hkeys (gs.mem_keys_iff.2 ⟨entry, hentry, rfl⟩))
      obtain ⟨y, hget, hequal⟩ := hfound entry' hentry'
      obtain rfl : entry.2 = y := by
        rw [hkey, Table.get?_of_mem hentry] at hget
        exact Option.some.inj hget
      exact ⟨entry'.2, hkey ▸ Table.get?_of_mem hentry', ih entry' hentry' hequal⟩
    | _ => exact hleaf _ _ h
  | _ => cases w <;> exact hleaf _ _ h

/-- **What makes more leaves equal makes more values equal.** -/
theorem equalBy_mono (hleaf : ∀ v w, leaf v w = true → leaf' v w = true) {v w : Value}
    (h : equalBy leaf v w = true) : equalBy leaf' v w = true := by
  induction v generalizing w with
  | array xs ih =>
    cases w with
    | array ys =>
      rw [equalBy_array_iff] at h ⊢
      exact forall₂_imp_of_mem h fun x hx y _ hxy => ih x hx hxy
    | _ => exact hleaf _ _ h
  | object fs ih =>
    cases w with
    | object gs =>
      rw [equalBy_object_iff] at h ⊢
      obtain ⟨hlength, hfound⟩ := h
      refine ⟨hlength, fun entry hentry => ?_⟩
      obtain ⟨y, hget, hequal⟩ := hfound entry hentry
      exact ⟨y, hget, ih entry hentry hequal⟩
    | _ => exact hleaf _ _ h
  | _ => cases w <;> exact hleaf _ _ h

/-! ## NaN -/

/-- A value is NaN, or holds it at some depth. -/
inductive HoldsNaN : Value → Prop
  | float {x : Float} : Binary64.ofFloat x = .nan → HoldsNaN (float x)
  | item {items : List Value} {v : Value} : v ∈ items → HoldsNaN v → HoldsNaN (array items)
  | field {keys : List String} {fields : Table Value keys} {entry : String × Value} :
      entry ∈ fields.entries → HoldsNaN entry.2 → HoldsNaN (object fields)

theorem holdsNaN_float_iff (x : Float) : (float x).HoldsNaN ↔ Binary64.ofFloat x = .nan :=
  ⟨fun h => by cases h with | float hnan => exact hnan, .float⟩

theorem holdsNaN_array_iff (items : List Value) :
    (array items).HoldsNaN ↔ ∃ v ∈ items, v.HoldsNaN :=
  ⟨fun h => by cases h with | item hv h => exact ⟨_, hv, h⟩, fun ⟨_, hv, h⟩ => .item hv h⟩

theorem holdsNaN_object_iff (fields : Table Value keys) :
    (object fields).HoldsNaN ↔ ∃ entry ∈ fields.entries, entry.2.HoldsNaN :=
  ⟨fun h => by cases h with | field hentry h => exact ⟨_, hentry, h⟩,
    fun ⟨_, hentry, h⟩ => .field hentry h⟩

theorem looseEq_float_self_iff (x : Float) :
    (float x).looseEq (float x) = true ↔ Binary64.ofFloat x ≠ .nan := by
  have hequal : (float x).looseEq (float x) = true ↔
      (Binary64.ofFloat x).compare? (Binary64.ofFloat x) = some .eq := by
    simp [looseEq, equalBy, looseLeaf, compare?]
  rw [hequal]
  refine ⟨fun h hnan => ?_, Binary64.compare?_self⟩
  rw [(Binary64.compare?_eq_none_iff _ _).2 (Or.inl hnan)] at h
  cases h

/-- **A value is equal to itself exactly if there is no NaN in it.** -/
theorem looseEq_self_iff (v : Value) : v.looseEq v = true ↔ ¬ v.HoldsNaN := by
  induction v with
  | float x => rw [looseEq_float_self_iff, holdsNaN_float_iff]
  | array items ih =>
    rw [looseEq, equalBy_array_iff, List.forall₂_same, holdsNaN_array_iff]
    simp only [not_exists, not_and]
    exact forall₂_congr ih
  | object fields ih =>
    -- an entry finds itself
    have hself : ∀ entry ∈ fields.entries, (∃ y, fields.get? entry.1 = some y ∧
        equalBy looseLeaf entry.2 y = true) ↔ ¬ entry.2.HoldsNaN := by
      intro entry hentry
      rw [Table.get?_of_mem hentry, ← ih entry hentry]
      simp [looseEq]
    rw [looseEq, equalBy_object_iff, holdsNaN_object_iff]
    simp only [true_and, not_exists, not_and]
    exact forall₂_congr hself
  | _ =>
    refine iff_of_true ?_ (fun h => by cases h)
    simp [looseEq, equalBy, looseLeaf, sameLeaf, compare?]

/-! ## Order -/

/-- **The order seen from the other side is reversed.** -/
theorem compare?_swap (v w : Value) : w.compare? v = (v.compare? w).map Ordering.swap := by
  cases v <;> cases w <;> try rfl
  case bool.bool a b => exact congrArg some Std.OrientedCmp.eq_swap
  case int.int m n => exact congrArg some Std.OrientedCmp.eq_swap
  case float.int x n => simp [compare?, Function.comp_def]
  case float.float x y => exact Binary64.compare?_swap _ _
  case str.str s t => exact congrArg some Std.OrientedCmp.eq_swap

/-- **Values that are ordered are equal exactly if neither is less.** -/
theorem looseEq_iff_of_compare? {v w : Value} (h : v.compare? w ≠ none) :
    v.looseEq w = true ↔ v.compare? w = some .eq := by
  cases v <;> cases w <;> try exact absurd rfl h
  case bool.bool a b => simp [looseEq, equalBy, looseLeaf, sameLeaf, compare?]
  case str.str s t => simp [looseEq, equalBy, looseLeaf, sameLeaf, compare?]
  all_goals simp [looseEq, equalBy, looseLeaf]

theorem looseLeaf_symm (v w : Value) (h : looseLeaf v w = true) : looseLeaf w v = true := by
  have hnumbers : (v.compare? w == some .eq) = true → (w.compare? v == some .eq) = true := by
    intro heq
    rw [compare?_swap v w, beq_iff_eq.1 heq]
    rfl
  cases v <;> cases w <;> try first | exact hnumbers h | exact h | cases h
  all_goals
    simp only [looseLeaf, sameLeaf, beq_iff_eq] at h ⊢
    exact h.symm

theorem looseLeaf_of_sameLeaf (v w : Value) (h : sameLeaf v w = true) : looseLeaf v w = true := by
  cases v <;> cases w <;> try first | exact h | cases h
  case int.int m n =>
    obtain rfl : m = n := beq_iff_eq.1 h
    simp [looseLeaf, compare?]

/-- **Equality is symmetric.** -/
theorem looseEq_comm (v w : Value) : v.looseEq w = w.looseEq v :=
  Bool.eq_iff_iff.2 ⟨equalBy_symm looseLeaf_symm, equalBy_symm looseLeaf_symm⟩

/-- **What is structurally equal is equal.** -/
theorem looseEq_of_same {v w : Value} (h : v.same w = true) : v.looseEq w = true :=
  equalBy_mono looseLeaf_of_sameLeaf h

end Value

/-! ## Comparators -/

namespace Comparator

open Value

variable {v w : Value}

/-- The comparator that holds of two values in this order, of those that say less, equal and
greater. -/
def ofOrdering : Ordering → Comparator
  | .lt => less
  | .eq => equal
  | .gt => greater

theorem ofOrdering_mem (o : Ordering) : ofOrdering o ∈ [less, equal, greater] := by
  cases o <;> simp [ofOrdering]

/-- Of values that are ordered the one comparator holds that names their order. -/
theorem test_iff_of_compare? {o : Ordering} (h : v.compare? w = some o) {op : Comparator}
    (hop : op ∈ [less, equal, greater]) : op.test v w = true ↔ op = ofOrdering o := by
  simp only [List.mem_cons, List.not_mem_nil, or_false] at hop
  rcases hop with rfl | rfl | rfl
  · cases o <;> simp [test, h, ofOrdering]
  · rw [test, looseEq_iff_of_compare? (by simp [h])]
    cases o <;> simp [h, ofOrdering]
  · cases o <;> simp [test, h, ofOrdering]

theorem equal_test_eq (h : v.compare? w ≠ none) :
    equal.test v w = (v.compare? w == some .eq) := by
  rw [Bool.eq_iff_iff, beq_iff_eq]
  exact looseEq_iff_of_compare? h

/-- **The comparators cohere on all values,** nested ones, handles and NaN included.  The order seen
from the other side is reversed, so less on one side is greater on the other; equality is symmetric;
a value is equal to itself exactly if there is no NaN in it; what is structurally equal is equal.
If two values are ordered, exactly one of less, equal and greater holds of them, and the tests that
include equality hold if one of their two parts does; if they are not, no ordering test holds. -/
theorem comparators_cohere (v w : Value) :
    (w.compare? v = (v.compare? w).map Ordering.swap ∧
      less.test v w = greater.test w v ∧ lessEqual.test v w = greaterEqual.test w v) ∧
    v.looseEq w = w.looseEq v ∧
    (v.looseEq v = true ↔ ¬ v.HoldsNaN) ∧
    (v.same w = true → v.looseEq w = true) ∧
    (v.compare? w ≠ none →
      (∃! op, op ∈ [less, equal, greater] ∧ op.test v w = true) ∧
      lessEqual.test v w = (less.test v w || equal.test v w) ∧
      greaterEqual.test v w = (greater.test v w || equal.test v w)) ∧
    (v.compare? w = none →
      ∀ op ∈ [less, greater, lessEqual, greaterEqual], op.test v w = false) := by
  have hswap := compare?_swap v w
  refine ⟨⟨hswap, ?_, ?_⟩, looseEq_comm v w, looseEq_self_iff v, looseEq_of_same,
    fun hordered => ⟨?_, ?_, ?_⟩, fun hnone => ?_⟩
  · rw [test, test, hswap]
    rcases v.compare? w with _ | _ | _ | _ <;> rfl
  · rw [test, test, hswap]
    rcases v.compare? w with _ | _ | _ | _ <;> rfl
  · obtain ⟨o, ho⟩ := Option.ne_none_iff_exists'.1 hordered
    refine ⟨ofOrdering o, ⟨ofOrdering_mem o, ?_⟩, fun op ⟨hop, htest⟩ => ?_⟩
    · exact (test_iff_of_compare? ho (ofOrdering_mem o)).2 rfl
    · exact (test_iff_of_compare? ho hop).1 htest
  · rw [equal_test_eq hordered]
    rfl
  · rw [equal_test_eq hordered]
    rfl
  · simp [test, hnone]

/-- Entries in another order, and a float for an integer in an array. -/
example : (Value.ofPairs [("k", .array [.int 1, .capability ⟨0⟩]), ("h", .host ⟨0⟩)]).looseEq
    (.ofPairs [("h", .host ⟨0⟩), ("k", .array [.float (Float.ofBits 0x3ff0000000000000),
      .capability ⟨0⟩])]) = true := by
  decide +kernel

end Comparator

end FilterQuery
