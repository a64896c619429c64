import FilterQuery.Proofs.Value.Comparison

/-!
# Proofs/Value/Data — values that are equal to themselves

Queries hold NaN to differ from itself, and so does every array and object with NaN in it.  A value
of **data**, which has neither NaN nor a handle in it, is equal to itself (`looseEq_self`).
-/

namespace FilterQuery

namespace Value

/-- Values made of null, Booleans, numbers and strings, by arrays and by objects. -/
inductive IsData : Value → Prop
  | null : IsData null
  | bool (b : Bool) : IsData (bool b)
  | int (n : Int64) : IsData (int n)
  | float {x : Float} : Binary64.ofFloat x ≠ .nan → IsData (float x)
  | str (s : String) : IsData (str s)
  | array {items : List Value} : (∀ v ∈ items, IsData v) → IsData (array items)
  | object {keys : List String} {fields : Table Value keys} :
      (∀ entry ∈ fields.entries, IsData entry.2) → IsData (object fields)

/-- Pairs of data make an object of data, with a key given again or not. -/
theorem isData_ofPairs {pairs : List (String × Value)} (h : ∀ pair ∈ pairs, pair.2.IsData) :
    (ofPairs pairs).IsData := by
  refine .object fun entry hentry => h entry ?_
  rw [Table.entries_ofFields] at hentry
  exact (Fields.merges_ofList pairs).subset hentry

theorem IsData.not_holdsNaN {v : Value} (h : v.IsData) : ¬ v.HoldsNaN := by
  induction h with
  | float hnan => rwa [holdsNaN_float_iff]
  | array _ ih => simpa [holdsNaN_array_iff] using ih
  | object _ ih =>
    rw [holdsNaN_object_iff]
    rintro ⟨entry, hentry, h⟩
    exact ih entry hentry h
  | _ => exact fun h => by cases h

/-- **Data is equal to itself.** -/
theorem looseEq_self {v : Value} (h : v.IsData) : v.looseEq v = true :=
  (looseEq_self_iff v).2 h.not_holdsNaN

end Value

end FilterQuery
