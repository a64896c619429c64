import FilterQuery.Fields
import Mathlib.Data.List.Induction
import Mathlib.Data.List.Perm.Subperm

/-!
# Proofs/Fields — what a table of entries with repeated keys comes to

`Merges` says it without the order of insertions: every key once, where it first occurs, with the
last value given for it.  That determines the table (`Merges.unique`), and `ofList` builds it.
-/

namespace FilterQuery

universe u

variable {α : Type u}

namespace Fields

/-- Of the entries with one key, `fields` has the place of the first and the value of the last. -/
structure Merges (entries : List (String × α)) (fields : Fields α) : Prop where
  keys : fields.keys = (entries.map Prod.fst).eraseDups
  get? : ∀ key, Fields.get? fields key = entries.reverse.lookup key

/-! ## Building the table -/

theorem keys_insert (fields : Fields α) (key : String) (a : α) :
    keys (insert fields key a) =
      if key ∈ keys fields then keys fields else keys fields ++ [key] := by
  induction fields with
  | nil => rfl
  | cons entry rest ih =>
    obtain ⟨k, b⟩ := entry
    by_cases hk : k = key
    · simp [insert, keys, hk]
    · have hne : key ≠ k := fun h => hk h.symm
      rw [insert, if_neg hk]
      change k :: keys (insert rest key a) =
        if key ∈ k :: keys rest then _ else k :: (keys rest ++ _)
      rw [ih]
      by_cases hmem : key ∈ keys rest
      · rw [if_pos hmem, if_pos (List.mem_cons_of_mem k hmem)]
        rfl
      · rw [if_neg hmem, if_neg fun h => (List.mem_cons.1 h).elim hne hmem]

theorem ofList_concat (entries : List (String × α)) (entry : String × α) :
    ofList (entries ++ [entry]) = insert (ofList entries) entry.1 entry.2 := by
  rw [ofList, List.foldl_append]
  rfl

/-- A table of images is the image of the table. -/
theorem mapValues_ofList {β : Type u} (f : α → β) (entries : List (String × α)) :
    mapValues f (ofList entries) = ofList (mapValues f entries) := by
  induction entries using List.reverseRecOn with
  | nil => rfl
  | append_singleton entries entry ih =>
    have hmap : mapValues f (entries ++ [entry]) =
        mapValues f entries ++ [(entry.1, f entry.2)] := List.map_append
    rw [ofList_concat, mapValues_insert, ih, hmap, ofList_concat]

/-- **Insertion in order merges the entries.** -/
theorem merges_ofList (entries : List (String × α)) : Merges entries (ofList entries) := by
  induction entries using List.reverseRecOn with
  | nil => exact ⟨rfl, fun _ => rfl⟩
  | append_singleton entries entry ih =>
    rw [ofList_concat]
    constructor
    · rw [keys_insert, ih.keys, List.map_append, List.eraseDups_append]
      by_cases hmem : entry.1 ∈ entries.map Prod.fst
      · rw [if_pos (List.mem_eraseDups.2 hmem)]
        simp_all [List.removeAll]
      · rw [if_neg fun h => hmem (List.mem_eraseDups.1 h)]
        simp_all [List.removeAll, List.eraseDups_cons]
    · intro key
      rw [get?_insert, ih.get?, List.reverse_append]
      obtain ⟨k, a⟩ := entry
      exact (get?_cons k a entries.reverse key).symm

/-! ## There is no other table -/

theorem get?_eq_none_of_notMem {fields : Fields α} {key : String} (h : key ∉ keys fields) :
    get? fields key = none := by
  induction fields with
  | nil => rfl
  | cons entry rest ih =>
    obtain ⟨k, a⟩ := entry
    have hk : key ≠ k := fun hk => h (hk ▸ List.mem_cons_self)
    rw [get?_cons, if_neg hk]
    exact ih fun hmem => h (List.mem_cons_of_mem k hmem)

/-- **Distinct keys in one order and one value for each key make one table.** -/
theorem ext_of_keys {fields fields' : Fields α} (hkeys : keys fields = keys fields')
    (hnodup : (keys fields).Nodup) (hget : ∀ key, get? fields key = get? fields' key) :
    fields = fields' := by
  induction fields generalizing fields' with
  | nil => exact (List.map_eq_nil_iff.1 hkeys.symm).symm
  | cons entry rest ih =>
    obtain ⟨k, a⟩ := entry
    obtain ⟨⟨k', a'⟩, rest', rfl⟩ : ∃ entry' rest', fields' = entry' :: rest' :=
      List.exists_cons_of_ne_nil fun h => by rw [h] at hkeys; cases hkeys
    obtain ⟨rfl, hrest⟩ : k = k' ∧ keys rest = keys rest' := List.cons_eq_cons.1 hkeys
    obtain ⟨hk, hnodup⟩ : k ∉ keys rest ∧ (keys rest).Nodup := List.nodup_cons.1 hnodup
    obtain rfl : a = a' := by
      have := hget k
      rw [get?_cons, get?_cons, if_pos rfl, if_pos rfl] at this
      exact Option.some.inj this
    obtain rfl : rest = rest' := by
      refine ih hrest hnodup fun key => ?_
      by_cases hkey : key = k
      · subst hkey
        rw [get?_eq_none_of_notMem hk, get?_eq_none_of_notMem (hrest ▸ hk)]
      · have := hget key
        rwa [get?_cons, get?_cons, if_neg hkey, if_neg hkey] at this
    rfl

/-- **The entries determine the table.** -/
theorem Merges.unique {entries : List (String × α)} {fields fields' : Fields α}
    (h : Merges entries fields) (h' : Merges entries fields') : fields = fields' := by
  have aux : ∀ fields : Fields α, Merges entries fields → fields = ofList entries := by
    intro fields h
    have hof := merges_ofList entries
    refine (ext_of_keys (hof.keys.trans h.keys.symm) (nodup_keys_ofList entries) fun key => ?_).symm
    rw [h.get?, hof.get?]
  rw [aux fields h, aux fields' h']

theorem Merges.eq_ofList {entries : List (String × α)} {fields : Fields α}
    (h : Merges entries fields) : fields = ofList entries :=
  h.unique (merges_ofList entries)

theorem Merges.nodup_keys {entries : List (String × α)} {fields : Fields α}
    (h : Merges entries fields) : (Fields.keys fields).Nodup :=
  h.eq_ofList ▸ nodup_keys_ofList entries

/-! ## Entries of the table -/

/-- **Under distinct keys every entry is found.** -/
theorem get?_of_mem {fields : Fields α} (hnodup : (keys fields).Nodup) {entry : String × α}
    (h : entry ∈ fields) : get? fields entry.1 = some entry.2 := by
  induction fields with
  | nil => cases h
  | cons first rest ih =>
    obtain ⟨k, a⟩ := first
    obtain ⟨hk, hnodup⟩ : k ∉ keys rest ∧ (keys rest).Nodup := List.nodup_cons.1 hnodup
    rcases List.mem_cons.1 h with rfl | hmem
    · exact (get?_cons _ _ _ _).trans (if_pos rfl)
    · have hne : entry.1 ≠ k := by
        rintro rfl
        exact hk (List.mem_map_of_mem hmem)
      rw [get?_cons, if_neg hne]
      exact ih hnodup hmem

/-- What is found is an entry. -/
theorem mem_of_get?_eq_some {fields : Fields α} {key : String} {a : α}
    (h : get? fields key = some a) : (key, a) ∈ fields := by
  induction fields with
  | nil => cases h
  | cons entry rest ih =>
    obtain ⟨k, b⟩ := entry
    rw [get?_cons] at h
    split at h
    · next hkey =>
      cases h
      exact hkey ▸ List.mem_cons_self
    · exact List.mem_cons_of_mem _ (ih h)

theorem mem_of_mem_insert {fields : Fields α} {key : String} {a : α} {entry : String × α}
    (h : entry ∈ insert fields key a) : entry = (key, a) ∨ entry ∈ fields := by
  induction fields with
  | nil => exact Or.inl (List.mem_singleton.1 h)
  | cons first rest ih =>
    obtain ⟨k, b⟩ := first
    by_cases hk : k = key
    · rw [insert, if_pos hk, hk] at h
      exact (List.mem_cons.1 h).imp_right (List.mem_cons_of_mem _)
    · rw [insert, if_neg hk] at h
      rcases List.mem_cons.1 h with h | h
      · exact Or.inr (h ▸ List.mem_cons_self)
      · exact (ih h).imp_right (List.mem_cons_of_mem _)

/-- **Merging makes no new entries.** -/
theorem Merges.subset {entries : List (String × α)} {fields : Fields α}
    (h : Merges entries fields) : fields ⊆ entries := by
  rw [h.eq_ofList]
  clear h
  induction entries using List.reverseRecOn with
  | nil => exact List.nil_subset _
  | append_singleton entries entry ih =>
    rw [ofList_concat]
    intro x hx
    rcases mem_of_mem_insert hx with rfl | hx
    · exact List.mem_concat_self
    · exact List.mem_append_left _ (ih hx)

theorem insert_of_notMem {fields : Fields α} {key : String} {a : α} (h : key ∉ keys fields) :
    insert fields key a = fields ++ [(key, a)] := by
  induction fields with
  | nil => rfl
  | cons entry rest ih =>
    obtain ⟨k, b⟩ := entry
    have hk : k ≠ key := fun hk => h (hk ▸ List.mem_cons_self)
    rw [insert, if_neg hk, ih fun hmem => h (List.mem_cons_of_mem k hmem), List.cons_append]

/-- **A table with distinct keys is what its own entries come to.** -/
theorem merges_self {fields : Fields α} (h : (keys fields).Nodup) : Merges fields fields := by
  have hof : ofList fields = fields := by
    induction fields using List.reverseRecOn with
    | nil => rfl
    | append_singleton fields entry ih =>
      have hparts : (keys fields ++ [entry.1]).Nodup := by simpa [keys] using h
      have hnew : entry.1 ∉ keys fields := fun hmem =>
        (List.nodup_append.1 hparts).2.2 _ hmem _ List.mem_cons_self rfl
      rw [ofList_concat, ih (List.nodup_append.1 hparts).1, insert_of_notMem hnew]
  have hmerges := merges_ofList fields
  rwa [hof] at hmerges

end Fields

/-! ## Tables -/

namespace Table

variable {keys keys' : List String}

/-- **An entry of a table is found under its key.** -/
theorem get?_of_mem {table : Table α keys} {entry : String × α} (h : entry ∈ table.entries) :
    table.get? entry.1 = some entry.2 :=
  Fields.get?_of_mem table.nodup_keys h

/-- The keys of a table are those of its entries. -/
theorem mem_keys_iff (table : Table α keys) {key : String} :
    key ∈ keys ↔ ∃ entry ∈ table.entries, entry.1 = key := by
  conv_lhs => rw [← table.keys_entries]
  exact List.mem_map

/-- **Of two tables of one size, the first has all keys of the second if the second has all keys of
the first.** -/
theorem keys_subset_of_length_eq (table : Table α keys) (hsub : keys ⊆ keys')
    (hlength : keys.length = keys'.length) : keys' ⊆ keys :=
  have hnodup : keys.Nodup := table.keys_entries ▸ table.nodup_keys
  ((hnodup.subperm hsub).perm_of_length_le (Nat.le_of_eq hlength.symm)).symm.subset

end Table

end FilterQuery
