import FilterQuery.Proofs.Json.Document

/-!
# Proofs/Json/Acceptance — every text in the grammar is read

    before cs rest ──value──▸ v, rest          cs written to stand for v, rest not going on with it

The reader looks for white space before an item twice, once after the bracket and once for the item
itself, and an item is read in the same way with and without it (`spaces_bind_dropWhile`).  So a
list between brackets is read if its items are (`bracketed_apply`), and by induction on the grammar
every value is (`Written.apply`).  A text as a whole is read exactly if it is a value with white
space around it (`read_eq_ok_iff`).
-/

namespace FilterQuery.Json

open FilterQuery.Rule (Separated apply_bind_of_ok apply_bind_eq_ok_iff apply_pure_eq_ok_iff
  apply_rest)

/-! ## Characters that do not go on with a value -/

/-- The next character is one that may follow an item. -/
def EndsItem (rest : List Char) : Prop :=
  ∀ c ∈ rest.head?, c ∈ [',', ']', '\x7d']

/-- White space is told from everything that is none. -/
theorem ne_of_isSpace {c d : Char} (hc : isSpace c = true) (hd : isSpace d = false) : c ≠ d := by
  rintro rfl
  exact Bool.false_ne_true (hd.symm.trans hc)

/-- White space is neither a letter nor a digit. -/
theorem isAlphanum_eq_false_of_isSpace {c : Char} (h : isSpace c = true) :
    c.isAlphanum = false := by
  simp only [isSpace, Bool.or_eq_true, decide_eq_true_eq] at h
  rcases h with ((rfl | rfl) | rfl) | rfl <;> decide

/-- What ends an item is no white space. -/
theorem EndsItem.isSpace_eq_false {rest : List Char} (h : EndsItem rest) :
    ∀ c ∈ rest.head?, isSpace c = false := by
  intro c hc
  have hmem := h c hc
  simp only [List.mem_cons, List.not_mem_nil, or_false] at hmem
  rcases hmem with rfl | rfl | rfl <;> decide

/-- What ends an item ends a number. -/
theorem EndsItem.endsNumber {rest : List Char} (h : EndsItem rest) : EndsNumber rest := by
  intro c hc
  have hmem := h c hc
  simp only [List.mem_cons, List.not_mem_nil, or_false] at hmem
  rcases hmem with rfl | rfl | rfl <;> decide

/-- The end of the text ends a number. -/
theorem endsNumber_nil : EndsNumber [] :=
  fun _ hc => nomatch hc

/-- White space goes on with no number. -/
theorem EndsNumber.append {after rest : List Char} (h : EndsNumber rest) (hafter : Spaces after) :
    EndsNumber (after ++ rest) := by
  cases after with
  | nil => exact h
  | cons c after =>
    rintro _ ⟨⟩
    have hc := hafter c List.mem_cons_self
    exact ⟨isAlphanum_eq_false_of_isSpace hc, ne_of_isSpace hc (by decide)⟩

/-! ## How values start -/

/-- Whether a value can start with a character. -/
def startsValue (c : Char) : Bool :=
  c.isDigit || c ∈ ['n', 't', 'f', '-', '"', '[', '\x7b']

/-- What starts a value is no white space and closes nothing. -/
theorem startsValue_cases {c : Char} (h : startsValue c = true) :
    isSpace c = false ∧ c ≠ ']' ∧ c ≠ '\x7d' := by
  rw [startsValue, Bool.or_eq_true, decide_eq_true_eq] at h
  rcases h with hdigit | hmem
  · refine ⟨?_, ne_of_isDigit hdigit (by decide), ne_of_isDigit hdigit (by decide)⟩
    refine Bool.eq_false_iff.2 fun hspace => ?_
    have halnum := isAlphanum_eq_false_of_isSpace hspace
    rw [Char.isAlphanum, hdigit, Bool.or_true] at halnum
    cases halnum
  · simp only [List.mem_cons, List.not_mem_nil, or_false] at hmem
    rcases hmem with rfl | rfl | rfl | rfl | rfl | rfl | rfl <;> decide

/-- A sign or a digit starts a value. -/
theorem startsValue_of_number {c : Char} (h : c = '-' ∨ c.isDigit = true) :
    startsValue c = true := by
  rcases h with rfl | hdigit
  · decide
  · rw [startsValue, hdigit, Bool.true_or]

/-- Every document starts with a character that starts a value. -/
theorem Written.exists_cons {depth : Nat} {cs : List Char} {v : Value} (h : Written depth cs v) :
    ∃ c cs', cs = c :: cs' ∧ startsValue c := by
  cases h with
  | null | true | false => exact ⟨_, _, rfl, by decide⟩
  | number hnumber =>
    obtain ⟨c, cs', rfl, hc⟩ := hnumber.exists_cons
    exact ⟨c, cs', rfl, startsValue_of_number hc⟩
  | string | array | object => exact ⟨_, _, rfl, by decide⟩

/-! ## Items -/

section Items

variable {α : Type}

/-- White space is dropped once. -/
theorem dropWhile_dropWhile_isSpace (s : List Char) :
    (s.dropWhile isSpace).dropWhile isSpace = s.dropWhile isSpace := by
  induction s with
  | nil => rfl
  | cons c s ih =>
    by_cases hc : isSpace c = true
    · rw [List.dropWhile_cons_of_pos hc, ih]
    · rw [List.dropWhile_cons_of_neg hc, List.dropWhile_cons_of_neg hc]

/-- A rule that skips white space first does not care how much there is. -/
theorem spaces_bind_dropWhile (f : Unit → Rule α) (s : List Char) :
    (spaces >>= f).apply (s.dropWhile isSpace) = (spaces >>= f).apply s := by
  rw [apply_bind_of_ok (apply_spaces _), apply_bind_of_ok (apply_spaces _),
    dropWhile_dropWhile_isSpace]

/-- An item is a value with white space around it. -/
theorem item_apply {value : Rule Value} {p : Piece} {rest : List Char} {c : Char} {cs : List Char}
    (hspaced : p.Spaced) (htext : p.text = c :: cs) (hc : startsValue c = true)
    (hvalue : value.apply (p.text ++ (p.after ++ rest)) = (.ok p.value, p.after ++ rest))
    (hrest : EndsItem rest) : (item value).apply (p.whole ++ rest) = (.ok p.value, rest) := by
  obtain ⟨hspace, hbracket, -⟩ := startsValue_cases hc
  have hhead : (p.text ++ (p.after ++ rest)).head? = some c := by rw [htext]; rfl
  rw [Piece.whole, List.append_assoc, List.append_assoc, item,
    spaces_bind hspaced.before (by rw [hhead]; rintro _ ⟨⟩; exact hspace), peek_bind, hhead]
  split
  · next hnone => cases hnone
  · next hsome =>
    cases hsome
    exact absurd rfl hbracket
  · rw [apply_bind_of_ok hvalue, spaces_bind hspaced.after hrest.isSpace_eq_false]
    rfl

/-- A colon is taken with the white space in front of it. -/
theorem colon_apply {gap rest : List Char} (hgap : Spaces gap) :
    colon.apply (gap ++ ':' :: rest) = (.ok (), rest) := by
  rw [colon, spaces_bind hgap (by rintro _ ⟨⟩; decide)]
  rfl

/-- An entry is a key, a colon and an item. -/
theorem entry_apply {value : Rule Value} {m : Member} {rest : List Char} (hkeyed : m.Keyed)
    (hvalue : value.apply (m.piece.before ++ (m.piece.text ++ (m.piece.after ++ rest))) =
      (.ok m.piece.value, m.piece.after ++ rest))
    (hrest : EndsItem rest) : (entry value).apply (m.whole ++ rest) = (.ok m.entry, rest) := by
  have hentry : ∀ t, (entry value).apply (m.before ++ '"' :: t) = Rule.apply (do
      let key ← textTail
      colon
      let v ← value
      spaces
      return (String.ofList key, v)) t := by
    intro t
    rw [entry, spaces_bind hkeyed.before (by rintro _ ⟨⟩; decide)]
    rfl
  simp only [Member.whole, Piece.whole, List.append_assoc, List.cons_append]
  rw [hentry, apply_bind_of_ok (hkeyed.key.apply _), apply_bind_of_ok (colon_apply hkeyed.gap),
    apply_bind_of_ok hvalue, spaces_bind hkeyed.piece.after hrest.isSpace_eq_false]
  rfl

variable {close : Char} {next : Unit → Rule α} {parts : List (List Char × α)}
  {blanks inner rest : List Char}

/-- Items start with a character that closes nothing. -/
theorem exists_dropWhile_eq (hne : parts ≠ [])
    (hstart : ∀ p ∈ parts, ∃ before c cs, p.1 = before ++ c :: cs ∧ Spaces before ∧
      isSpace c = false ∧ c ≠ close)
    (hsep : Separated isComma (parts.map Prod.fst) inner) :
    ∃ c cs, (inner ++ rest).dropWhile isSpace = c :: cs ∧ c ≠ close := by
  obtain ⟨p, parts, rfl⟩ := List.exists_cons_of_ne_nil hne
  obtain ⟨before, c, cs, hp, hbefore, hc, hcne⟩ := hstart p List.mem_cons_self
  rw [List.map_cons, hp] at hsep
  obtain ⟨more, rfl⟩ := hsep.exists_append
  have hdrop : (before ++ c :: (cs ++ (more ++ rest))).dropWhile isSpace = _ :=
    dropWhile_isSpace hbefore (by rintro _ ⟨⟩; exact hc)
  exact ⟨c, cs ++ (more ++ rest), by simpa using hdrop, hcne⟩

/-- Items are read after their white space. -/
theorem list_apply_dropWhile (hclose : close ∈ [']', '\x7d']) (hne : parts ≠ [])
    (hparts : ∀ p ∈ parts, ∀ rest, EndsItem rest →
      (spaces >>= next).apply (p.1 ++ rest) = (.ok p.2, rest))
    (hsep : Separated isComma (parts.map Prod.fst) inner) :
    (Rule.list isComma (spaces >>= next)).apply ((inner ++ close :: rest).dropWhile isSpace) =
      (.ok (parts.map Prod.snd), close :: rest) := by
  have hend : EndsItem (close :: rest) := by
    rintro _ ⟨⟩
    exact List.mem_cons_of_mem _ hclose
  have hstop : ∀ t us, close :: rest = t :: us → isComma t = false := by
    simp only [List.mem_cons, List.not_mem_nil, or_false] at hclose
    rintro _ _ ⟨⟩
    rcases hclose with rfl | rfl <;> rfl
  have hsame := spaces_bind_dropWhile next (inner ++ close :: rest)
  change Rule.listFrom isComma _ _ = _
  rw [Rule.listFrom_congr hsame]
  refine Rule.apply_list (fun t us ht => ?_) hne hparts hsep hend hstop
  rintro _ ⟨⟩
  obtain rfl : t = ',' := by simpa [isComma] using ht
  exact List.mem_cons_self

/-- **A list between brackets is read,** if each item is and none starts with the closing one. -/
theorem bracketed_apply {unclosed unexpected : Cause} {build : List α → Value}
    (hclose : close ∈ [']', '\x7d']) (hblanks : Spaces blanks)
    (hparts : ∀ p ∈ parts, ∀ rest, EndsItem rest →
      (spaces >>= next).apply (p.1 ++ rest) = (.ok p.2, rest))
    (hstart : ∀ p ∈ parts, ∃ before c cs, p.1 = before ++ c :: cs ∧ Spaces before ∧
      isSpace c = false ∧ c ≠ close)
    (hsep : Separated isComma (parts.map Prod.fst) inner) :
    (bracketed close unclosed unexpected (spaces >>= next) build).apply
      (blanks ++ (inner ++ close :: rest)) = (.ok (build (parts.map Prod.snd)), rest) := by
  have hspace : ¬ isSpace close = true := by
    simp only [List.mem_cons, List.not_mem_nil, or_false] at hclose
    rcases hclose with rfl | rfl <;> decide
  rw [bracketed, apply_bind_of_ok (apply_spaces _), List.dropWhile_append_of_pos hblanks, peek_bind]
  by_cases hne : parts = []
  · subst hne
    cases hsep
    rw [List.nil_append, List.dropWhile_cons_of_neg hspace, List.head?_cons]
    dsimp only
    rw [if_pos rfl]
    rfl
  · obtain ⟨c, cs, hdrop, hc⟩ : ∃ c cs, (inner ++ close :: rest).dropWhile isSpace = c :: cs ∧
        c ≠ close := exists_dropWhile_eq hne hstart hsep
    rw [hdrop, List.head?_cons]
    dsimp only
    rw [if_neg hc, ← hdrop, apply_bind_of_ok (list_apply_dropWhile hclose hne hparts hsep),
      peek_bind, List.head?_cons]
    dsimp only
    rw [if_pos rfl]
    rfl

end Items

/-! ## Values -/

variable {inner : Option (Rule Value)} {rest : List Char}

/-- No white space is white space too. -/
theorem spaces_nil : Spaces [] :=
  fun _ hc => nomatch hc

/-- The first character of a value tells how it is read. -/
theorem valueWith_apply {before cs : List Char} {c : Char} (hbefore : Spaces before)
    (hc : startsValue c = true) :
    (valueWith inner).apply (before ++ c :: cs) = (valueAt inner c).apply (c :: cs) := by
  rw [valueWith_eq, spaces_bind hbefore (by rintro _ ⟨⟩; exact (startsValue_cases hc).1)]
  rfl

/-- At every depth the value rule is one around the rule inside, if there is one. -/
theorem exists_value_eq (n : Nat) : ∃ inner, value n = valueWith inner := by
  cases n with
  | zero => exact ⟨none, rfl⟩
  | succ n => exact ⟨some (value n), rfl⟩

/-- A word is read at its first character, whatever depth is left. -/
theorem value_apply_word {c : Char} {cs before : List Char} {v : Value}
    (hat : ∀ inner, valueAt inner c = do Rule.skip; word cs; return v)
    (hc : startsValue c = true) (n : Nat) (hbefore : Spaces before) :
    (value n).apply (before ++ (c :: cs ++ rest)) = (.ok v, rest) := by
  obtain ⟨inner, hvalue⟩ := exists_value_eq n
  rw [hvalue, List.cons_append, valueWith_apply hbefore hc, hat, skip_bind,
    apply_bind_of_ok (word_apply cs rest)]
  rfl

/-- At a sign or a digit a value is a number. -/
theorem valueAt_number {c : Char} (hc : c = '-' ∨ c.isDigit = true) :
    valueAt inner c = Numeral.valueRule := by
  rcases hc with rfl | hdigit
  · rfl
  · unfold valueAt
    rw [if_neg (ne_of_isDigit hdigit (by decide)), if_neg (ne_of_isDigit hdigit (by decide)),
      if_neg (ne_of_isDigit hdigit (by decide)), if_pos (Or.inr hdigit)]

/-- A number is left to the rule for numbers. -/
theorem NumberText.value_apply {cs before : List Char} {numeral : Numeral}
    (h : NumberText cs numeral) (n : Nat) (hbefore : Spaces before) :
    (value n).apply (before ++ (cs ++ rest)) = Numeral.valueRule.apply (cs ++ rest) := by
  obtain ⟨inner, hvalue⟩ := exists_value_eq n
  obtain ⟨c, cs', rfl, hc⟩ := h.exists_cons
  rw [hvalue, List.cons_append, valueWith_apply hbefore (startsValue_of_number hc),
    valueAt_number hc]

/-- A number is taken where it stands when something follows that ends it. -/
theorem NumberText.valueRule_apply {cs : List Char} {numeral : Numeral} {v : Value}
    (h : NumberText cs numeral) (hv : numeral.value? = .ok v) (hrest : EndsNumber rest) :
    Numeral.valueRule.apply (cs ++ rest) = (.ok v, rest) := by
  rw [Numeral.valueRule, apply_bind_of_ok (h.apply hrest), hv]
  rfl

/-- **The rest of an array is taken where it stands**, once its items are. -/
theorem arrayTail_apply {value : Rule Value} {pieces : List Piece} {blanks inner : List Char}
    (hblanks : Spaces blanks) (hspaced : ∀ p ∈ pieces, p.Spaced)
    (hstart : ∀ p ∈ pieces, ∃ c cs, p.text = c :: cs ∧ startsValue c = true)
    (hvalue : ∀ p ∈ pieces, ∀ rest, EndsNumber rest →
      value.apply (p.text ++ rest) = (.ok p.value, rest))
    (hsep : Separated isComma (pieces.map Piece.whole) inner) :
    (arrayTail value).apply (blanks ++ (inner ++ ']' :: rest)) =
      (.ok (.array (pieces.map Piece.value)), rest) := by
  have hwhole : (pieces.map Piece.part).map Prod.fst = pieces.map Piece.whole := List.map_map
  have hvalues : (pieces.map Piece.part).map Prod.snd = pieces.map Piece.value := List.map_map
  rw [arrayTail_eq, ← hvalues]
  refine bracketed_apply (by simp) hblanks ?_ ?_ (hwhole ▸ hsep)
  · refine List.forall_mem_map.2 fun p hp rest hrest => ?_
    obtain ⟨c, cs, htext, hc⟩ := hstart p hp
    have hafter := hrest.endsNumber.append (hspaced p hp).after
    exact item_apply (hspaced p hp) htext hc (hvalue p hp _ hafter) hrest
  · refine List.forall_mem_map.2 fun p hp => ?_
    obtain ⟨c, cs, htext, hc⟩ := hstart p hp
    obtain ⟨hspace, hbracket, -⟩ := startsValue_cases hc
    exact ⟨p.before, c, cs ++ p.after, by simp [Piece.part, Piece.whole, htext],
      (hspaced p hp).before, hspace, hbracket⟩

/-- **The rest of an object is taken where it stands**, once its members are. -/
theorem objectTail_apply {value : Rule Value} {members : List Member} {blanks inner : List Char}
    (hblanks : Spaces blanks) (hkeyed : ∀ m ∈ members, m.Keyed)
    (hvalue : ∀ m ∈ members, ∀ rest, EndsNumber rest →
      value.apply (m.piece.before ++ (m.piece.text ++ rest)) = (.ok m.piece.value, rest))
    (hsep : Separated isComma (members.map Member.whole) inner) :
    (objectTail value).apply (blanks ++ (inner ++ '\x7d' :: rest)) =
      (.ok (.ofPairs (members.map Member.entry)), rest) := by
  have hwhole : (members.map Member.part).map Prod.fst = members.map Member.whole := List.map_map
  have hentries : (members.map Member.part).map Prod.snd = members.map Member.entry := List.map_map
  rw [objectTail_eq, ← hentries]
  refine bracketed_apply (by simp) hblanks ?_ ?_ (hwhole ▸ hsep)
  · refine List.forall_mem_map.2 fun m hm rest hrest => ?_
    have hafter := hrest.endsNumber.append (hkeyed m hm).piece.after
    exact entry_apply (hkeyed m hm) (hvalue m hm _ hafter) hrest
  · exact List.forall_mem_map.2 fun m hm =>
      ⟨m.before, '"', _, rfl, (hkeyed m hm).before, by decide, by decide⟩

/-- **A value is read as what it stands for,** by a reader of its depth or more, with white space
before it and whatever follows that does not go on with it. -/
theorem Written.apply {depth : Nat} {cs : List Char} {v : Value} (h : Written depth cs v) {n : Nat}
    (hn : depth ≤ n) {before rest : List Char} (hbefore : Spaces before) (hrest : EndsNumber rest) :
    (value n).apply (before ++ (cs ++ rest)) = (.ok v, rest) := by
  induction h generalizing n before rest with
  | null => exact value_apply_word (fun _ => rfl) (by decide) n hbefore
  | true => exact value_apply_word (fun _ => rfl) (by decide) n hbefore
  | false => exact value_apply_word (fun _ => rfl) (by decide) n hbefore
  | number hnumber hv =>
    rw [hnumber.value_apply n hbefore]
    exact hnumber.valueRule_apply hv hrest
  | string htext =>
    obtain ⟨inner, hvalue⟩ := exists_value_eq n
    have hquote : ∀ s, (valueAt inner '"').apply ('"' :: s) =
        Rule.apply (do return .str (String.ofList (← textTail))) s := fun _ => rfl
    rw [hvalue, List.cons_append, valueWith_apply hbefore (by decide), hquote,
      apply_bind_of_ok (htext.apply rest)]
    rfl
  | @array d pieces blanks cs hblanks hspaced hwritten hsep ih =>
    obtain ⟨m, rfl⟩ : ∃ m, n = m + 1 := ⟨n - 1, by omega⟩
    have hbracket : ∀ s, (valueAt (some (value m)) '[').apply ('[' :: s) =
        (arrayTail (value m)).apply s := fun _ => rfl
    rw [value, List.cons_append, valueWith_apply hbefore (by decide), hbracket]
    simp only [List.append_assoc, List.singleton_append]
    refine arrayTail_apply hblanks hspaced (fun p hp => (hwritten p hp).exists_cons) ?_ hsep
    exact fun p hp rest hrest => ih p hp (Nat.le_of_succ_le_succ hn) spaces_nil hrest
  | @object d members blanks cs hblanks hkeyed hwritten hsep ih =>
    obtain ⟨m, rfl⟩ : ∃ m, n = m + 1 := ⟨n - 1, by omega⟩
    have hbrace : ∀ s, (valueAt (some (value m)) '\x7b').apply ('\x7b' :: s) =
        (objectTail (value m)).apply s := fun _ => rfl
    rw [value, List.cons_append, valueWith_apply hbefore (by decide), hbrace]
    simp only [List.append_assoc, List.singleton_append]
    refine objectTail_apply hblanks hkeyed (fun member hmember rest hrest => ?_) hsep
    exact ih member hmember (Nat.le_of_succ_le_succ hn) (hkeyed member hmember).piece.before hrest

/-! ## Whole texts -/

/-- **A text is read exactly if it is a value with white space around it,** and as that value. -/
theorem read_eq_ok_iff {text : String} {v : Value} : read text = .ok v ↔
    ∃ p : Piece, p.Spaced ∧ p.value = v ∧ p.whole = text.toList ∧ Written maxDepth p.text v := by
  rw [read, Rule.mapError_eq_ok_iff]
  constructor
  · intro h
    obtain ⟨u, t, hvalue, hrest⟩ := apply_bind_eq_ok_iff.1 (Prod.ext h rfl)
    obtain ⟨after, w, rfl, hafter, hend⟩ := spaces_bind_eq_ok hrest
    obtain ⟨-, htext, before, cs, rfl, hbefore, hcs⟩ := value_yields _ _ _ _ hvalue
    rw [peek_bind] at hend
    split at hend
    · next hnil =>
      obtain rfl := List.head?_eq_none_iff.1 hnil
      obtain ⟨rfl, -⟩ := apply_pure_eq_ok_iff.1 hend
      exact ⟨⟨before, cs, after, u⟩, ⟨hbefore, hafter⟩, rfl, by simp [Piece.whole, htext], hcs⟩
    · exact absurd hend fail_ne_ok
  · rintro ⟨p, hspaced, -, hwhole, hwritten⟩
    have hafter := endsNumber_nil.append hspaced.after
    rw [List.append_nil] at hafter
    have hdrop : (p.after ++ []).dropWhile isSpace = [] :=
      List.dropWhile_append_of_pos hspaced.after
    rw [List.append_nil] at hdrop
    rw [← hwhole, document, Piece.whole,
      apply_bind_of_ok (hwritten.apply (Nat.le_refl _) hspaced.before hafter),
      apply_bind_of_ok (apply_spaces _), hdrop]
    rfl

/-- A value alone is a text. -/
theorem Written.read_eq {depth : Nat} {cs : List Char} {v : Value} (h : Written depth cs v)
    (hdepth : depth ≤ maxDepth) : read (String.ofList cs) = .ok v :=
  read_eq_ok_iff.2 ⟨⟨[], cs, [], v⟩, ⟨spaces_nil, spaces_nil⟩, rfl, by simp [Piece.whole],
    h.mono hdepth⟩

/-- **There is one reason why a number is not read.** -/
theorem NumberText.cause_eq {cs : List Char} {numeral : Numeral} (h : NumberText cs numeral)
    {e : Error} (he : read (String.ofList cs) = .error e) : e.cause = .numberOutOfRange := by
  rcases hv : numeral.value? with unread | v
  · have hvalue : Numeral.valueRule.apply cs = (.error ⟨.numberOutOfRange, unread⟩, []) := by
      have hrule := h.apply endsNumber_nil
      rw [List.append_nil] at hrule
      rw [Numeral.valueRule, apply_bind_of_ok hrule, hv]
      dsimp only
      rw [apply_bind_of_ok (apply_rest _), Text.byteLength_nil, Nat.zero_add]
      rfl
    have hread : (value maxDepth).apply ([] ++ (cs ++ [])) = _ := h.value_apply maxDepth spaces_nil
    rw [List.nil_append, List.append_nil, hvalue] at hread
    rw [read, String.toList_ofList, document, Rule.apply_bind, hread] at he
    cases he
    rfl
  · have hwritten : Written 0 cs v := .number h hv
    rw [hwritten.read_eq (Nat.zero_le _)] at he
    cases he

end FilterQuery.Json
