/-!
# Fields — string-keyed entries in first-insertion order

Objects, object literals and the memo of a run are small tables from names to things. `insert`
overwrites an entry where it stands and appends a new one at the end, so the order of the keys is
the order in which they first appeared and the last value written under a key is the one kept.

A `Table` is such entries with no key given twice, which its type says. Objects are tables.
-/

namespace FilterQuery

universe u v

variable {α : Type u} {β : Type v}

/-- Entries in the order in which their keys were first inserted. -/
abbrev Fields (α : Type u) := List (String × α)

namespace Fields

/-- The value under `key`. -/
def get? (fields : Fields α) (key : String) : Option α :=
  fields.lookup key

/-- Writes `a` under `key`: in place if the key is known, at the end if it is new. -/
def insert : Fields α → String → α → Fields α
  | [], key, a => [(key, a)]
  | (k, b) :: rest, key, a =>
    if k = key then (k, a) :: rest else (k, b) :: insert rest key a

/-- The table written by inserting the entries one after the other. -/
def ofList (entries : List (String × α)) : Fields α :=
  entries.foldl (fun fields entry => insert fields entry.1 entry.2) []

/-- The keys, in order. -/
def keys (fields : Fields α) : List String :=
  fields.map Prod.fst

/-- Applies `f` to every value and keeps the keys. -/
def mapValues (f : α → β) (fields : Fields α) : Fields β :=
  fields.map fun entry => (entry.1, f entry.2)

@[simp] theorem get?_nil (key : String) : get? ([] : Fields α) key = none := rfl

theorem get?_cons (k : String) (a : α) (rest : Fields α) (key : String) :
    get? ((k, a) :: rest) key = if key = k then some a else get? rest key := by
  by_cases h : key = k
  · simp [get?, h]
  · simp [get?, List.lookup_cons, beq_eq_false_iff_ne.mpr h, h]

/-- **A write is read back, and it touches no other key.** -/
theorem get?_insert (fields : Fields α) (key : String) (a : α) (name : String) :
    get? (insert fields key a) name = if name = key then some a else get? fields name := by
  induction fields with
  | nil => simp [insert, get?_cons]
  | cons entry rest ih =>
    obtain ⟨k, b⟩ := entry
    by_cases hk : k = key
    · subst hk
      by_cases hn : name = k <;> simp [insert, get?_cons, hn]
    · by_cases hn : name = k
      · subst hn
        simp [insert, get?_cons, hk]
      · simp [insert, get?_cons, hk, hn, ih]

theorem mem_keys_insert (fields : Fields α) (key : String) (a : α) (name : String) :
    name ∈ keys (insert fields key a) ↔ name = key ∨ name ∈ keys fields := by
  induction fields with
  | nil => simp [insert, keys]
  | cons entry rest ih =>
    obtain ⟨k, b⟩ := entry
    by_cases hk : k = key
    · subst hk
      simp [insert, keys]
    · have ih' : name ∈ List.map Prod.fst (insert rest key a) ↔
          name = key ∨ name ∈ List.map Prod.fst rest := ih
      simp only [insert, hk, if_false, keys, List.map_cons, List.mem_cons, ih']
      constructor <;> rintro (h | h | h) <;> simp [h]

/-- **Writing keeps the keys distinct.** -/
theorem nodup_keys_insert (fields : Fields α) (key : String) (a : α) (h : (keys fields).Nodup) :
    (keys (insert fields key a)).Nodup := by
  induction fields with
  | nil => simp [insert, keys]
  | cons entry rest ih =>
    obtain ⟨k, b⟩ := entry
    have hd : k ∉ keys rest ∧ (keys rest).Nodup := List.nodup_cons.1 h
    by_cases hk : k = key
    · subst hk
      simpa [insert, keys] using hd
    · have hne : k ∉ keys (insert rest key a) := fun hm =>
        ((mem_keys_insert rest key a k).1 hm).elim hk hd.1
      simpa [insert, hk, keys] using And.intro hne (ih hd.2)

/-- **The keys of a table built by insertion are distinct.** -/
theorem nodup_keys_ofList (entries : List (String × α)) : (keys (ofList entries)).Nodup := by
  suffices ∀ fields : Fields α, (keys fields).Nodup →
      (keys (entries.foldl (fun fields entry => insert fields entry.1 entry.2) fields)).Nodup from
    this [] (by simp [keys])
  induction entries with
  | nil => exact fun _ h => h
  | cons entry rest ih => exact fun fields h => ih _ (nodup_keys_insert fields _ _ h)

theorem mapValues_insert (f : α → β) (fields : Fields α) (key : String) (a : α) :
    mapValues f (insert fields key a) = insert (mapValues f fields) key (f a) := by
  induction fields with
  | nil => rfl
  | cons entry rest ih =>
    obtain ⟨k, b⟩ := entry
    by_cases hk : k = key
    · simp [insert, mapValues, hk]
    · simpa [insert, mapValues, hk] using ih

end Fields

/-- Entries with the keys `keys` in their order, no two of which are the same. -/
inductive Table (α : Type u) : (keys : List String) → Type u where
  | nil : Table α []
  | cons {keys : List String} (key : String) (a : α) (rest : Table α keys) (new : key ∉ keys) :
      Table α (key :: keys)

namespace Table

variable {keys : List String}

/-- The entries of a table, in order. -/
def entries {keys : List String} : Table α keys → Fields α
  | nil => []
  | cons key a rest _ => (key, a) :: rest.entries

/-- The table of entries with distinct keys. -/
def ofFields : (fields : Fields α) → (Fields.keys fields).Nodup → Table α (Fields.keys fields)
  | [], _ => nil
  | (key, a) :: rest, h => cons key a (ofFields rest h.tail) (List.nodup_cons.1 h).1

/-- The value under `key`. -/
def get? (table : Table α keys) (key : String) : Option α :=
  Fields.get? table.entries key

@[simp] theorem keys_entries (table : Table α keys) : Fields.keys table.entries = keys := by
  induction table with
  | nil => rfl
  | cons key a rest _ ih => exact congrArg (key :: ·) ih

/-- **The keys of a table are distinct.** -/
theorem nodup_keys (table : Table α keys) : (Fields.keys table.entries).Nodup := by
  rw [keys_entries]
  induction table with
  | nil => exact List.nodup_nil
  | cons key a rest new ih => exact List.nodup_cons.2 ⟨new, ih⟩

@[simp] theorem entries_ofFields (fields : Fields α) (h : (Fields.keys fields).Nodup) :
    (ofFields fields h).entries = fields := by
  induction fields with
  | nil => rfl
  | cons entry rest ih => exact congrArg (entry :: ·) (ih h.tail)

end Table

end FilterQuery
