import FilterQuery.Json.Document
import FilterQuery.Proofs.Json.Numeral

/-!
# Proofs/Json/Document — the grammar of JSON texts

    value  := 'null' | 'true' | 'false' | number | string | array | object
    array  := '[' spaces [ item { ',' item } ] ']'           item   := spaces value spaces
    object := '{' spaces [ member { ',' member } ] '}'       member := spaces string spaces ':' item

`Written depth cs v` says that the characters `cs` are a value that stands for `v`, with `depth`
levels of arrays and objects at most.  What `value` reads is written so (`value_yields`).  Arrays
and objects are read alike, so there is one rule for both (`bracketed`).
-/

namespace FilterQuery.Json

open FilterQuery.Rule (Separated Yields apply_bind_of_ok apply_bind_eq_ok_iff apply_pure_eq_ok_iff
  apply_throw_ne_ok apply_peek apply_rest apply_skip)

/-! ## The grammar -/

/-- Nothing but white space. -/
def Spaces (cs : List Char) : Prop :=
  ∀ c ∈ cs, isSpace c = true

/-- Whether a character is the comma between items. -/
def isComma (c : Char) : Bool :=
  c == ','

/-- A value with white space around it. -/
structure Piece where
  before : List Char
  text : List Char
  after : List Char
  value : Value

namespace Piece

/-- The characters of a piece. -/
def whole (p : Piece) : List Char :=
  p.before ++ (p.text ++ p.after)

/-- The characters, and what they stand for. -/
def part (p : Piece) : List Char × Value :=
  (p.whole, p.value)

/-- There is nothing but white space around the value. -/
structure Spaced (p : Piece) : Prop where
  before : Spaces p.before
  after : Spaces p.after

end Piece

/-- An entry of an object: a key, which starts after its quote, and a value. -/
structure Member where
  before : List Char
  key : List Char
  gap : List Char
  name : List Char
  piece : Piece

namespace Member

/-- The characters of an entry. -/
def whole (m : Member) : List Char :=
  m.before ++ '"' :: (m.key ++ (m.gap ++ ':' :: m.piece.whole))

/-- The key and the value under it. -/
def entry (m : Member) : String × Value :=
  (String.ofList m.name, m.piece.value)

/-- The characters, and what they stand for. -/
def part (m : Member) : List Char × (String × Value) :=
  (m.whole, m.entry)

/-- The key is a string that stands for the name, with nothing but white space around. -/
structure Keyed (m : Member) : Prop where
  before : Spaces m.before
  key : StringText m.key m.name
  gap : Spaces m.gap
  piece : m.piece.Spaced

end Member

/-- The characters of a value, without white space around, and the value. -/
inductive Written : Nat → List Char → Value → Prop
  | null {depth : Nat} : Written depth ['n', 'u', 'l', 'l'] .null
  | true {depth : Nat} : Written depth ['t', 'r', 'u', 'e'] (.bool true)
  | false {depth : Nat} : Written depth ['f', 'a', 'l', 's', 'e'] (.bool false)
  | number {depth : Nat} {cs : List Char} {numeral : Numeral} {v : Value} :
      NumberText cs numeral → numeral.value? = .ok v → Written depth cs v
  | string {depth : Nat} {cs name : List Char} : StringText cs name →
      Written depth ('"' :: cs) (.str (String.ofList name))
  | array {depth : Nat} {pieces : List Piece} {blanks inner : List Char} : Spaces blanks →
      (∀ p ∈ pieces, p.Spaced) → (∀ p ∈ pieces, Written depth p.text p.value) →
      Separated isComma (pieces.map Piece.whole) inner →
      Written (depth + 1) ('[' :: (blanks ++ (inner ++ [']']))) (.array (pieces.map Piece.value))
  | object {depth : Nat} {members : List Member} {blanks inner : List Char} : Spaces blanks →
      (∀ m ∈ members, m.Keyed) → (∀ m ∈ members, Written depth m.piece.text m.piece.value) →
      Separated isComma (members.map Member.whole) inner →
      Written (depth + 1) ('\x7b' :: (blanks ++ (inner ++ ['\x7d'])))
        (.ofPairs (members.map Member.entry))

/-- More depth is no harm. -/
theorem Written.mono {depth n : Nat} {cs : List Char} {v : Value} (h : Written depth cs v)
    (hn : depth ≤ n) : Written n cs v := by
  induction h generalizing n with
  | null => exact .null
  | true => exact .true
  | false => exact .false
  | number hnumber hv => exact .number hnumber hv
  | string htext => exact .string htext
  | array hblanks hspaced _ hsep ih =>
    obtain ⟨m, rfl⟩ : ∃ m, n = m + 1 := ⟨n - 1, by omega⟩
    exact .array hblanks hspaced (fun p hp => ih p hp (Nat.le_of_succ_le_succ hn)) hsep
  | object hblanks hkeyed _ hsep ih =>
    obtain ⟨m, rfl⟩ : ∃ m, n = m + 1 := ⟨n - 1, by omega⟩
    exact .object hblanks hkeyed (fun p hp => ih p hp (Nat.le_of_succ_le_succ hn)) hsep

/-! ## Steps of the reader -/

section Steps

variable {α : Type}

/-- The white space rule drops all white space in front. -/
theorem apply_spaces (s : List Char) : spaces.apply s = (.ok (), s.dropWhile isSpace) := rfl

/-- White space is dropped up to what follows and no further. -/
theorem dropWhile_isSpace {before rest : List Char} (h : Spaces before)
    (hrest : ∀ c ∈ rest.head?, isSpace c = false) :
    (before ++ rest).dropWhile isSpace = rest := by
  rw [List.dropWhile_append_of_pos h]
  cases rest with
  | nil => rfl
  | cons c rest => exact List.dropWhile_cons_of_neg (by simp [hrest c rfl])

/-- White space before a part is skipped. -/
theorem spaces_bind {before rest : List Char} (h : Spaces before)
    (hrest : ∀ c ∈ rest.head?, isSpace c = false) (f : Unit → Rule α) :
    (spaces >>= f).apply (before ++ rest) = (f ()).apply rest := by
  rw [apply_bind_of_ok (apply_spaces _), dropWhile_isSpace h hrest]

/-- What follows `spaces` starts after the white space. -/
theorem spaces_bind_eq_ok {f : Unit → Rule α} {s r : List Char} {a : α}
    (h : (spaces >>= f).apply s = (.ok a, r)) :
    ∃ before t, s = before ++ t ∧ Spaces before ∧ (f ()).apply t = (.ok a, r) := by
  rw [apply_bind_of_ok (apply_spaces s)] at h
  exact ⟨s.takeWhile isSpace, _, List.takeWhile_append_dropWhile.symm,
    List.all_eq_true.1 List.all_takeWhile, h⟩

theorem peek_bind (f : Option Char → Rule α) (s : List Char) :
    (Rule.peek >>= f).apply s = (f s.head?).apply s := rfl

theorem skip_bind (f : Unit → Rule α) (c : Char) (s : List Char) :
    (Rule.skip >>= f).apply (c :: s) = (f ()).apply s := rfl

end Steps

/-- A word is taken where it stands. -/
theorem word_apply (cs rest : List Char) : (word cs).apply (cs ++ rest) = (.ok (), rest) := by
  induction cs with
  | nil => rfl
  | cons c cs ih =>
    rw [word, peek_bind, List.cons_append, List.head?_cons]
    dsimp only
    rw [if_pos rfl, skip_bind, ih]

/-- The word rule takes that word and nothing else. -/
theorem word_yields (cs : List Char) : (word cs).Yields fun ts _ => ts = cs := by
  intro s u r h
  induction cs generalizing s with
  | nil =>
    cases h
    exact ⟨[], rfl, rfl⟩
  | cons c cs ih =>
    rw [word, peek_bind] at h
    cases s with
    | nil => exact absurd h fail_ne_ok
    | cons d s =>
      rw [List.head?_cons] at h
      dsimp only at h
      split at h
      · next hd =>
        subst hd
        rw [skip_bind] at h
        obtain ⟨ts, rfl, rfl⟩ := ih _ h
        exact ⟨d :: ts, rfl, rfl⟩
      · exact absurd h fail_ne_ok

/-! ## Items between brackets -/

section Brackets

variable {α : Type}

/-- What `arrayTail` and `objectTail` have in common. -/
def bracketed (close : Char) (unclosed unexpected : Cause) (item : Rule α)
    (build : List α → Value) : Rule Value := do
  spaces
  match ← Rule.peek with
  | none => fail unclosed 1
  | some c =>
    if c = close then
      Rule.skip
      return build []
    else
      let items ← Rule.list isComma item
      match ← Rule.peek with
      | none => fail unclosed 1
      | some c =>
        if c = close then
          Rule.skip
          return build items
        else fail unexpected 1

theorem peek_bind_congr {f g : Option Char → Rule α} (h : ∀ next, f next = g next) :
    (Rule.peek >>= f) = (Rule.peek >>= g) :=
  congrArg (Rule.peek >>= ·) (funext h)

/-- An array after its bracket is one case of a bracketed list, of items. -/
theorem arrayTail_eq (value : Rule Value) :
    arrayTail value = bracketed ']' .endInArray .expectedCommaOrBracket (item value) .array := by
  refine congrArg (spaces >>= ·) (funext fun _ => peek_bind_congr fun next => ?_)
  split
  · rfl
  · rfl
  · next c hc =>
    dsimp only
    rw [if_neg hc]
    refine congrArg (Rule.list isComma (item value) >>= ·)
      (funext fun items => peek_bind_congr fun next => ?_)
    split
    · rfl
    · rfl
    · next c hc =>
      dsimp only
      rw [if_neg hc]

/-- An object after its brace is the other case, of entries. -/
theorem objectTail_eq (value : Rule Value) : objectTail value =
    bracketed '\x7d' .endInObject .expectedCommaOrBrace (entry value) .ofPairs := by
  refine congrArg (spaces >>= ·) (funext fun _ => peek_bind_congr fun next => ?_)
  split
  · rfl
  · rfl
  · next c hc =>
    dsimp only
    rw [if_neg hc]
    refine congrArg (Rule.list isComma (entry value) >>= ·)
      (funext fun items => peek_bind_congr fun next => ?_)
    split
    · rfl
    · rfl
    · next c hc =>
      dsimp only
      rw [if_neg hc]

variable {close : Char} {unclosed unexpected : Cause} {item : Rule α} {build : List α → Value}

/-- **What is read between brackets is a list of what the items are.** -/
theorem bracketed_yields {P : List Char → α → Prop} (hitem : item.Yields P) :
    (bracketed close unclosed unexpected item build).Yields fun ts v =>
      ∃ (blanks inner : List Char) (parts : List (List Char × α)), Spaces blanks ∧
        (∀ p ∈ parts, P p.1 p.2) ∧ Separated isComma (parts.map Prod.fst) inner ∧
        ts = blanks ++ (inner ++ [close]) ∧ v = build (parts.map Prod.snd) := by
  intro s v r h
  obtain ⟨blanks, t, rfl, hblanks, htail⟩ := spaces_bind_eq_ok h
  rw [peek_bind] at htail
  split at htail
  · exact absurd htail fail_ne_ok
  · next c hc =>
    obtain ⟨t, rfl⟩ := List.head?_eq_some_iff.1 hc
    split at htail
    · next hclose =>
      subst hclose
      rw [skip_bind] at htail
      obtain ⟨rfl, rfl⟩ := apply_pure_eq_ok_iff.1 htail
      exact ⟨blanks ++ [c], by simp, blanks, [], [], hblanks, by simp, .nil, rfl, rfl⟩
    · obtain ⟨items, u, hitems, hlast⟩ := apply_bind_eq_ok_iff.1 htail
      obtain ⟨inner, ht, parts, -, rfl, hparts, hsep⟩ := hitem.list _ _ _ hitems
      rw [peek_bind] at hlast
      split at hlast
      · exact absurd hlast fail_ne_ok
      · next d hd =>
        obtain ⟨u, rfl⟩ := List.head?_eq_some_iff.1 hd
        split at hlast
        · next hclose =>
          subst hclose
          rw [skip_bind] at hlast
          obtain ⟨rfl, rfl⟩ := apply_pure_eq_ok_iff.1 hlast
          exact ⟨blanks ++ (inner ++ [d]), by simp [ht], blanks, inner, parts, hblanks, hparts,
            hsep, rfl, rfl⟩
        · exact absurd hlast fail_ne_ok

end Brackets

/-! ## What is read is written so -/

variable {depth : Nat}

/-- A value after white space. -/
def Indented (depth : Nat) (ts : List Char) (v : Value) : Prop :=
  ∃ before cs, ts = before ++ cs ∧ Spaces before ∧ Written depth cs v

/-- A value with white space around it. -/
def IsPiece (depth : Nat) (ts : List Char) (v : Value) : Prop :=
  ∃ p : Piece, (p.Spaced ∧ Written depth p.text p.value) ∧ p.part = (ts, v)

/-- An entry whose value is a value. -/
def IsMember (depth : Nat) (ts : List Char) (entry : String × Value) : Prop :=
  ∃ m : Member, (m.Keyed ∧ Written depth m.piece.text m.piece.value) ∧ m.part = (ts, entry)

theorem Spaces.append {cs ds : List Char} (h : Spaces cs) (h' : Spaces ds) : Spaces (cs ++ ds) :=
  fun c hc => (List.mem_append.1 hc).elim (h c) (h' c)

/-- White space around a value makes a piece of it. -/
theorem isPiece_of_indented {before ts after : List Char} {v : Value} (hbefore : Spaces before)
    (h : Indented depth ts v) (hafter : Spaces after) :
    IsPiece depth (before ++ (ts ++ after)) v := by
  obtain ⟨inner, cs, rfl, hinner, hcs⟩ := h
  exact ⟨⟨before ++ inner, cs, after, v⟩, ⟨⟨hbefore.append hinner, hafter⟩, hcs⟩,
    by simp [Piece.part, Piece.whole]⟩

/-- The item rule takes pieces. -/
theorem item_yields {value : Rule Value} (hvalue : value.Yields (Indented depth)) :
    (item value).Yields (IsPiece depth) := by
  intro s v r h
  obtain ⟨before, t, rfl, hbefore, hitem⟩ := spaces_bind_eq_ok h
  rw [peek_bind] at hitem
  split at hitem
  · exact absurd hitem fail_ne_ok
  · exact absurd hitem fail_ne_ok
  · obtain ⟨v', u, hv, hlast⟩ := apply_bind_eq_ok_iff.1 hitem
    obtain ⟨after, w, rfl, hafter, hend⟩ := spaces_bind_eq_ok hlast
    obtain ⟨rfl, rfl⟩ := apply_pure_eq_ok_iff.1 hend
    obtain ⟨ts, rfl, hts⟩ := hvalue _ _ _ hv
    exact ⟨_, by simp, isPiece_of_indented hbefore hts hafter⟩

/-- The rest of an array, with its bracket, is a document one level up. -/
theorem arrayTail_yields {value : Rule Value} (hvalue : value.Yields (Indented depth)) :
    (arrayTail value).Yields fun ts v => Written (depth + 1) ('[' :: ts) v := by
  intro s v r h
  rw [arrayTail_eq] at h
  obtain ⟨-, rfl, blanks, inner, parts, hblanks, hparts, hsep, rfl, rfl⟩ :=
    bracketed_yields (item_yields hvalue) _ _ _ h
  obtain ⟨pieces, hpieces, rfl⟩ := Rule.exists_map_eq hparts
  rw [List.map_map] at hsep ⊢
  exact ⟨_, rfl, .array hblanks (fun p hp => (hpieces p hp).1) (fun p hp => (hpieces p hp).2) hsep⟩

/-- A colon is taken with the white space in front of it. -/
theorem colon_yields : colon.Yields fun ts _ => ∃ gap, Spaces gap ∧ ts = gap ++ [':'] := by
  intro s u r h
  obtain ⟨gap, t, rfl, hgap, hcolon⟩ := spaces_bind_eq_ok h
  rw [peek_bind] at hcolon
  split at hcolon
  · exact absurd hcolon fail_ne_ok
  · next hhead =>
    obtain ⟨t, rfl⟩ := List.head?_eq_some_iff.1 hhead
    rw [Rule.apply_skip] at hcolon
    cases hcolon
    exact ⟨gap ++ [':'], by simp, gap, hgap, rfl⟩
  · exact absurd hcolon fail_ne_ok

/-- The entry rule takes members. -/
theorem entry_yields {value : Rule Value} (hvalue : value.Yields (Indented depth)) :
    (entry value).Yields (IsMember depth) := by
  intro s e r h
  obtain ⟨before, t, rfl, hbefore, hentry⟩ := spaces_bind_eq_ok h
  rw [peek_bind] at hentry
  split at hentry
  · exact absurd hentry fail_ne_ok
  · exact absurd hentry fail_ne_ok
  · next hquote =>
    obtain ⟨t, rfl⟩ := List.head?_eq_some_iff.1 hquote
    rw [skip_bind] at hentry
    obtain ⟨name, u, hkey, hrest⟩ := apply_bind_eq_ok_iff.1 hentry
    obtain ⟨⟨⟩, w, hcolon, hpiece⟩ := apply_bind_eq_ok_iff.1 hrest
    obtain ⟨v, x, hv, hlast⟩ := apply_bind_eq_ok_iff.1 hpiece
    obtain ⟨after, y, rfl, hafter, hend⟩ := spaces_bind_eq_ok hlast
    obtain ⟨rfl, rfl⟩ := apply_pure_eq_ok_iff.1 hend
    obtain ⟨key, rfl, hstring⟩ := textTail_yields _ _ _ hkey
    obtain ⟨-, rfl, gap, hgap, rfl⟩ := colon_yields _ _ _ hcolon
    obtain ⟨-, rfl, inner, cs, rfl, hinner, hcs⟩ := hvalue _ _ _ hv
    refine ⟨_, ?_, ⟨before, key, gap, name, ⟨inner, cs, after, v⟩⟩,
      ⟨⟨hbefore, hstring, hgap, hinner, hafter⟩, hcs⟩, rfl⟩
    simp [Member.whole, Piece.whole]
  · exact absurd hentry fail_ne_ok

/-- The rest of an object, with its brace, is a document one level up. -/
theorem objectTail_yields {value : Rule Value} (hvalue : value.Yields (Indented depth)) :
    (objectTail value).Yields fun ts v => Written (depth + 1) ('\x7b' :: ts) v := by
  intro s v r h
  rw [objectTail_eq] at h
  obtain ⟨-, rfl, blanks, inner, parts, hblanks, hparts, hsep, rfl, rfl⟩ :=
    bracketed_yields (entry_yields hvalue) _ _ _ h
  obtain ⟨members, hmembers, rfl⟩ := Rule.exists_map_eq hparts
  rw [List.map_map] at hsep ⊢
  exact ⟨_, rfl, .object hblanks (fun m hm => (hmembers m hm).1) (fun m hm => (hmembers m hm).2)
    hsep⟩

/-- The number rule takes number texts and gives the values they stand for. -/
theorem valueRule_yields : Numeral.valueRule.Yields fun ts v =>
    ∃ numeral, NumberText ts numeral ∧ numeral.value? = .ok v := by
  intro s v r h
  rw [Numeral.valueRule] at h
  obtain ⟨numeral, t, hnumeral, hvalue⟩ := apply_bind_eq_ok_iff.1 h
  obtain ⟨ts, rfl, hts⟩ := Numeral.rule_yields _ _ _ hnumeral
  split at hvalue
  · next v' hv =>
    obtain ⟨rfl, rfl⟩ := apply_pure_eq_ok_iff.1 hvalue
    exact ⟨ts, rfl, numeral, hts, hv⟩
  · rw [apply_bind_of_ok (apply_rest _)] at hvalue
    exact absurd hvalue apply_throw_ne_ok

/-- What `valueWith` does at a character. -/
def valueAt (inner : Option (Rule Value)) (c : Char) : Rule Value := do
  if c = 'n' then
    Rule.skip
    word ['u', 'l', 'l']
    return .null
  else if c = 't' then
    Rule.skip
    word ['r', 'u', 'e']
    return .bool true
  else if c = 'f' then
    Rule.skip
    word ['a', 'l', 's', 'e']
    return .bool false
  else if c = '-' ∨ c.isDigit then Numeral.valueRule
  else if c = '"' then
    Rule.skip
    return .str (String.ofList (← textTail))
  else if c = '[' ∨ c = '\x7b' then
    match inner with
    | none => fail .tooDeep 1
    | some value =>
      Rule.skip
      if c = '[' then arrayTail value else objectTail value
  else fail .expectedValue 1

theorem valueWith_eq (inner : Option (Rule Value)) : valueWith inner = (do
    spaces
    match ← Rule.peek with
    | none => fail .endInValue 1
    | some c => valueAt inner c) := rfl

/-- A word that is read is there. -/
theorem eq_of_word {c : Char} {cs s r : List Char} {v w : Value}
    (h : Rule.apply (do Rule.skip; word cs; return w) (c :: s) = (.ok v, r)) :
    c :: s = c :: cs ++ r ∧ w = v := by
  rw [skip_bind] at h
  obtain ⟨⟨⟩, t, hcs, hend⟩ := apply_bind_eq_ok_iff.1 h
  obtain ⟨rfl, rfl⟩ := apply_pure_eq_ok_iff.1 hend
  obtain ⟨-, rfl, rfl⟩ := word_yields _ _ _ _ hcs
  exact ⟨rfl, rfl⟩

/-- What is read from a bracket or a brace on is an array or an object of the text. -/
theorem tail_eq_ok {value : Rule Value} (hvalue : value.Yields (Indented depth)) {c : Char}
    {s r : List Char} {v : Value} (hc : c = '[' ∨ c = '\x7b')
    (h : (if c = '[' then arrayTail value else objectTail value).apply s = (.ok v, r)) :
    ∃ cs, c :: s = cs ++ r ∧ Written (depth + 1) cs v := by
  split at h
  · next hbracket =>
    subst hbracket
    obtain ⟨cs, rfl, hcs⟩ := arrayTail_yields hvalue _ _ _ h
    exact ⟨'[' :: cs, rfl, hcs⟩
  · next hbracket =>
    obtain rfl : c = '\x7b' := hc.resolve_left hbracket
    obtain ⟨cs, rfl, hcs⟩ := objectTail_yields hvalue _ _ _ h
    exact ⟨'\x7b' :: cs, rfl, hcs⟩

/-- What follows a character, with that character, is what it says: one case for each way in which a
value can start. -/
theorem valueAt_yields {inner : Option (Rule Value)}
    (hinner : ∀ value, inner = some value → ∃ d, depth = d + 1 ∧ value.Yields (Indented d))
    {c : Char} {s r : List Char} {v : Value} (h : (valueAt inner c).apply (c :: s) = (.ok v, r)) :
    ∃ cs, c :: s = cs ++ r ∧ Written depth cs v := by
  unfold valueAt at h
  split at h
  · next hc =>
    obtain ⟨hs, rfl⟩ := eq_of_word h
    exact ⟨_, hs, hc ▸ .null⟩
  split at h
  · next hc =>
    obtain ⟨hs, rfl⟩ := eq_of_word h
    exact ⟨_, hs, hc ▸ .true⟩
  split at h
  · next hc =>
    obtain ⟨hs, rfl⟩ := eq_of_word h
    exact ⟨_, hs, hc ▸ .false⟩
  split at h
  · obtain ⟨cs, hs, numeral, hcs, hv⟩ := valueRule_yields _ _ _ h
    exact ⟨cs, hs, .number hcs hv⟩
  split at h
  · next hc =>
    subst hc
    rw [skip_bind] at h
    obtain ⟨name, t, hname, hend⟩ := apply_bind_eq_ok_iff.1 h
    obtain ⟨rfl, rfl⟩ := apply_pure_eq_ok_iff.1 hend
    obtain ⟨cs, rfl, hcs⟩ := textTail_yields _ _ _ hname
    exact ⟨'"' :: cs, rfl, .string hcs⟩
  split at h
  · next hbracket =>
    cases inner with
    | none => exact absurd h fail_ne_ok
    | some value =>
      obtain ⟨d, rfl, hyields⟩ := hinner value rfl
      rw [skip_bind] at h
      exact tail_eq_ok hyields hbracket h
  · exact absurd h fail_ne_ok

/-- **The value rule takes documents** of its depth when the rule inside takes those one level down.
-/
theorem valueWith_yields {inner : Option (Rule Value)}
    (hinner : ∀ value, inner = some value → ∃ d, depth = d + 1 ∧ value.Yields (Indented d)) :
    (valueWith inner).Yields (Indented depth) := by
  intro s v r h
  rw [valueWith_eq] at h
  obtain ⟨before, t, rfl, hbefore, hvalue⟩ := spaces_bind_eq_ok h
  rw [peek_bind] at hvalue
  cases t with
  | nil => exact absurd hvalue fail_ne_ok
  | cons c t =>
    obtain ⟨cs, ht, hcs⟩ := valueAt_yields hinner hvalue
    exact ⟨before ++ cs, by rw [ht]; simp, before, cs, rfl, hbefore, hcs⟩

/-- **What is read as a value is written so.** -/
theorem value_yields (depth : Nat) : (value depth).Yields (Indented depth) := by
  induction depth with
  | zero => exact valueWith_yields fun _ h => nomatch h
  | succ depth ih =>
    refine valueWith_yields ?_
    rintro _ ⟨⟩
    exact ⟨depth, rfl, ih⟩

end FilterQuery.Json
