import FilterQuery.Json.Numeral
import FilterQuery.Proofs.Json.Text

/-!
# Proofs/Json/Numeral — one grammar of numbers for both readers

    number   := [ '-' ] integer [ fraction ] [ exponent ]
    integer  := '0' | digits that do not start with '0'
    fraction := '.' digits
    exponent := ( 'e' | 'E' ) [ '+' | '-' ] digits

`NumberText cs numeral` says that the characters `cs` are a number with these parts.  That is what
the reader of JSON takes (`rule_yields`, `NumberText.apply`), and it is what a number token of a
query is (`NumberText.numberLength?_eq`, `exists_numberText`).
-/

namespace FilterQuery.Json

open FilterQuery.Rule (Yields apply_bind_of_ok apply_bind_eq_ok_iff apply_pure_eq_ok_iff
  apply_throw_ne_ok)

/-! ## The grammar -/

/-- The numbers that digits stand for. -/
def digitValues (ds : List Char) : List Nat :=
  ds.map fun d => d.toNat - '0'.toNat

/-- Digits, at least one of them. -/
structure IsDigits (ds : List Char) : Prop where
  ne_nil : ds ≠ []
  digit : ∀ d ∈ ds, d.isDigit = true

/-- A zero, or digits that do not start with one. -/
inductive IntegerText : List Char → Prop
  | zero : IntegerText ['0']
  | digits {d : Char} {ds : List Char} : d ≠ '0' → IsDigits (d :: ds) → IntegerText (d :: ds)

/-- Nothing, or a point and digits. -/
inductive FractionText : List Char → List Nat → Prop
  | none : FractionText [] []
  | point {ds : List Char} : IsDigits ds → FractionText ('.' :: ds) (digitValues ds)

/-- Nothing, or a letter and digits, perhaps with a sign between. -/
inductive ExponentText : List Char → Option Exponent → Prop
  | none : ExponentText [] none
  | plain {e : Char} {ds : List Char} : e ∈ ['e', 'E'] → IsDigits ds →
      ExponentText (e :: ds) (some ⟨false, digitValues ds⟩)
  | signed {e sign : Char} {ds : List Char} : e ∈ ['e', 'E'] → sign ∈ ['+', '-'] → IsDigits ds →
      ExponentText (e :: sign :: ds) (some ⟨sign = '-', digitValues ds⟩)

/-- The sign of a number. -/
def signText (negative : Bool) : List Char :=
  if negative then ['-'] else []

/-- The characters of a number, and its parts. -/
inductive NumberText : List Char → Numeral → Prop
  | intro (negative : Bool) {is fs es : List Char} {fraction : List Nat}
      {exponent : Option Exponent} : IntegerText is → FractionText fs fraction →
      ExponentText es exponent → NumberText (signText negative ++ (is ++ (fs ++ es)))
        ⟨negative, digitValues is, fraction, exponent⟩

/-! ## How the parts start -/

/-- The next character goes on with no run of digits. -/
def EndsDigits (rest : List Char) : Prop :=
  ∀ c ∈ rest.head?, c.isDigit = false

/-- The next character goes on with no number. -/
def EndsNumber (rest : List Char) : Prop :=
  ∀ c ∈ rest.head?, c.isAlphanum = false ∧ c ≠ '.'

/-- What ends a number ends a run of digits. -/
theorem EndsNumber.endsDigits {rest : List Char} (h : EndsNumber rest) : EndsDigits rest :=
  fun c hc => (Bool.or_eq_false_iff.1 (h c hc).1).2

/-- The run of digits in front is what stands before the text that ends it. -/
theorem EndsDigits.takeWhile_append {ds rest : List Char} (hrest : EndsDigits rest)
    (hds : ∀ d ∈ ds, d.isDigit = true) : (ds ++ rest).takeWhile Char.isDigit = ds := by
  have hnone : rest.takeWhile Char.isDigit = [] := by
    cases rest with
    | nil => rfl
    | cons c rest => exact List.takeWhile_cons_of_neg (by simp [hrest c rfl])
  rw [List.takeWhile_append_of_pos hds, hnone, List.append_nil]

/-- Behind the run of digits in front comes the text that ends it. -/
theorem EndsDigits.dropWhile_append {ds rest : List Char} (hrest : EndsDigits rest)
    (hds : ∀ d ∈ ds, d.isDigit = true) : (ds ++ rest).dropWhile Char.isDigit = rest := by
  rw [List.dropWhile_append_of_pos hds]
  cases rest with
  | nil => rfl
  | cons c rest => exact List.dropWhile_cons_of_neg (by simp [hrest c rfl])

theorem ne_of_isDigit {c d : Char} (hc : c.isDigit = true) (hd : d.isDigit = false) : c ≠ d := by
  rintro rfl
  rw [hc] at hd
  cases hd

/-- Digits start with one. -/
theorem IsDigits.head {ds : List Char} (h : IsDigits ds) :
    ∃ d ds', ds = d :: ds' ∧ d.isDigit = true := by
  obtain ⟨d, ds', rfl⟩ := List.exists_cons_of_ne_nil h.ne_nil
  exact ⟨d, ds', rfl, h.digit d List.mem_cons_self⟩

/-- An integer consists of digits. -/
theorem IntegerText.isDigits {is : List Char} (h : IntegerText is) : IsDigits is := by
  cases h with
  | zero => exact ⟨by simp, List.forall_mem_singleton.2 rfl⟩
  | digits _ hds => exact hds

/-- A fraction goes on with no integer, and neither does what follows a missing one. -/
theorem FractionText.endsDigits {fs rest : List Char} {fraction : List Nat}
    (h : FractionText fs fraction) (hrest : EndsDigits rest) : EndsDigits (fs ++ rest) := by
  cases h with
  | none => exact hrest
  | point =>
    rintro c ⟨⟩
    decide

/-- A letter that starts an exponent. -/
theorem letter_of_mem {e : Char} (h : e ∈ ['e', 'E']) : e.isDigit = false ∧ e ≠ '.' := by
  simp only [List.mem_cons, List.not_mem_nil, or_false] at h
  rcases h with rfl | rfl <;> decide

/-- An exponent goes on with no fraction, and neither does what follows a missing one. -/
theorem ExponentText.head {es rest : List Char} {exponent : Option Exponent}
    (h : ExponentText es exponent) (hrest : EndsNumber rest) :
    ∀ c ∈ (es ++ rest).head?, c.isDigit = false ∧ c ≠ '.' := by
  cases h with
  | none => exact fun c hc => ⟨hrest.endsDigits c hc, (hrest c hc).2⟩
  | plain he =>
    rintro c ⟨⟩
    exact letter_of_mem he
  | signed he =>
    rintro c ⟨⟩
    exact letter_of_mem he

/-- A number starts with a minus or a digit. -/
theorem NumberText.exists_cons {cs : List Char} {numeral : Numeral} (h : NumberText cs numeral) :
    ∃ c cs', cs = c :: cs' ∧ (c = '-' ∨ c.isDigit = true) := by
  obtain ⟨negative, his, -, -⟩ := h
  cases negative with
  | true => exact ⟨'-', _, rfl, Or.inl rfl⟩
  | false =>
    obtain ⟨d, ds, rfl, hd⟩ := his.isDigits.head
    exact ⟨d, _, rfl, Or.inr hd⟩

/-! ## Reading numbers in JSON -/

namespace Numeral

/-- The rule for digits takes the whole run, and never fails. -/
theorem digits_apply (s : List Char) : digits.apply s =
    (.ok (digitValues (s.takeWhile Char.isDigit)), s.dropWhile Char.isDigit) := rfl

/-- Digits are taken up to the text that ends them. -/
theorem digits_append {ds rest : List Char} (hds : ∀ d ∈ ds, d.isDigit = true)
    (hrest : EndsDigits rest) : digits.apply (ds ++ rest) = (.ok (digitValues ds), rest) := by
  rw [digits_apply, hrest.takeWhile_append hds, hrest.dropWhile_append hds]

/-- A character that is accepted is taken. -/
theorem acceptAny_of_mem {c : Char} {cs : List Char} (h : c ∈ cs) (s : List Char) :
    (acceptAny cs).apply (c :: s) = (.ok (some c), s) := by
  rw [acceptAny, apply_bind_of_ok (Rule.apply_peek _), List.head?_cons]
  dsimp only
  rw [if_pos h]
  rfl

/-- Without such a character nothing is taken. -/
theorem acceptAny_of_notMem {cs s : List Char} (h : ∀ c ∈ s.head?, c ∉ cs) :
    (acceptAny cs).apply s = (.ok none, s) := by
  rw [acceptAny, apply_bind_of_ok (Rule.apply_peek _)]
  cases s with
  | nil => rfl
  | cons c s =>
    rw [List.head?_cons]
    dsimp only
    rw [if_neg (h c rfl)]
    rfl

/-- The next character is taken if it is accepted. -/
theorem acceptAny_cases (cs s : List Char) :
    (∃ c t, s = c :: t ∧ c ∈ cs ∧ (acceptAny cs).apply s = (.ok (some c), t)) ∨
      (acceptAny cs).apply s = (.ok none, s) := by
  cases s with
  | nil => exact Or.inr rfl
  | cons c t =>
    by_cases hc : c ∈ cs
    · exact Or.inl ⟨c, t, rfl, hc, acceptAny_of_mem hc t⟩
    · refine Or.inr (acceptAny_of_notMem ?_)
      rintro d ⟨⟩
      exact hc

/-- What is taken as digits consists of these. -/
theorem digits_eq_ok {s r : List Char} {ns : List Nat} (h : digits.apply s = (.ok ns, r)) :
    ∃ ds, s = ds ++ r ∧ ns = digitValues ds ∧ ∀ d ∈ ds, d.isDigit = true := by
  rw [digits_apply] at h
  cases h
  exact ⟨s.takeWhile Char.isDigit, List.takeWhile_append_dropWhile.symm, rfl,
    List.all_eq_true.1 List.all_takeWhile⟩

/-- Digits where there have to be some. -/
theorem isDigits_of_ne_nil {ds : List Char} (h : digitValues ds ≠ [])
    (hds : ∀ d ∈ ds, d.isDigit = true) : IsDigits ds :=
  ⟨fun hnil => h (by rw [hnil]; rfl), hds⟩

/-- What is read as the integer of a number is one. -/
theorem integerPart_yields :
    integerPart.Yields fun ts ns => IntegerText ts ∧ ns = digitValues ts := by
  intro s ns r h
  rw [integerPart, apply_bind_of_ok (Rule.apply_peek s)] at h
  cases s with
  | nil => exact absurd h fail_ne_ok
  | cons c s =>
    rw [List.head?_cons] at h
    dsimp only at h
    split at h
    · next hc =>
      subst hc
      rw [apply_bind_of_ok (Rule.apply_skip _), apply_bind_of_ok (Rule.apply_peek _)] at h
      split at h
      · split at h
        · exact absurd h fail_ne_ok
        · cases h
          exact ⟨['0'], rfl, .zero, rfl⟩
      · cases h
        exact ⟨['0'], rfl, .zero, rfl⟩
    · next hc =>
      split at h
      · next hd =>
        obtain ⟨ds, hs, rfl, hds⟩ := digits_eq_ok h
        cases ds with
        | nil =>
          rw [digits_apply, List.takeWhile_cons_of_pos hd] at h
          cases h
        | cons d ds =>
          obtain ⟨rfl, -⟩ := List.cons.inj hs
          exact ⟨c :: ds, hs, .digits hc ⟨by simp, hds⟩, rfl⟩
      · exact absurd h fail_ne_ok

/-- What is read as the fraction of a number is one, or nothing. -/
theorem fractionPart_yields : fractionPart.Yields FractionText := by
  intro s ns r h
  rw [fractionPart] at h
  obtain ⟨c, t, rfl, hc, happly⟩ | happly := acceptAny_cases ['.'] s
  · obtain rfl : c = '.' := List.mem_singleton.1 hc
    rw [apply_bind_of_ok happly] at h
    obtain ⟨ds, u, hds, h⟩ := apply_bind_eq_ok_iff.1 h
    obtain ⟨ds, rfl, rfl, hdigits⟩ := digits_eq_ok hds
    split at h
    · obtain ⟨next, v, -, h⟩ := apply_bind_eq_ok_iff.1 h
      split at h <;> exact absurd h fail_ne_ok
    · next hne =>
      obtain ⟨rfl, rfl⟩ := apply_pure_eq_ok_iff.1 h
      exact ⟨'.' :: ds, rfl, .point (isDigits_of_ne_nil hne hdigits)⟩
  · rw [apply_bind_of_ok happly] at h
    cases h
    exact ⟨[], rfl, .none⟩

/-- What is read as the exponent of a number is one, or nothing. -/
theorem exponentPart_yields : exponentPart.Yields ExponentText := by
  intro s x r h
  rw [exponentPart] at h
  obtain ⟨e, t, rfl, he, happly⟩ | happly := acceptAny_cases ['e', 'E'] s
  · rw [apply_bind_of_ok happly] at h
    obtain ⟨sign, u, hsign, h⟩ := apply_bind_eq_ok_iff.1 h
    obtain ⟨ns, v, hns, h⟩ := apply_bind_eq_ok_iff.1 h
    obtain ⟨ds, rfl, rfl, hdigits⟩ := digits_eq_ok hns
    split at h
    · obtain ⟨next, w, -, h⟩ := apply_bind_eq_ok_iff.1 h
      split at h <;> exact absurd h fail_ne_ok
    · next hne =>
      obtain ⟨rfl, rfl⟩ := apply_pure_eq_ok_iff.1 h
      have hds := isDigits_of_ne_nil hne hdigits
      obtain ⟨c, t, rfl, hc, hsome⟩ | hnone := acceptAny_cases ['+', '-'] t
      · rw [hsome] at hsign
        cases hsign
        exact ⟨e :: c :: ds, rfl, by simpa using ExponentText.signed he hc hds⟩
      · rw [hnone] at hsign
        cases hsign
        exact ⟨e :: ds, rfl, .plain he hds⟩
  · rw [apply_bind_of_ok happly] at h
    cases h
    exact ⟨[], rfl, .none⟩

/-- **What is read as a number is a number.** -/
theorem rule_yields : rule.Yields NumberText := by
  intro s numeral r h
  rw [rule] at h
  obtain ⟨sign, t, hsign, h⟩ := apply_bind_eq_ok_iff.1 h
  obtain ⟨integer, u, hinteger, h⟩ := apply_bind_eq_ok_iff.1 h
  obtain ⟨fraction, v, hfraction, h⟩ := apply_bind_eq_ok_iff.1 h
  obtain ⟨exponent, w, hexponent, h⟩ := apply_bind_eq_ok_iff.1 h
  obtain ⟨rfl, rfl⟩ := apply_pure_eq_ok_iff.1 h
  obtain ⟨is, rfl, his, rfl⟩ := integerPart_yields _ _ _ hinteger
  obtain ⟨fs, rfl, hfs⟩ := fractionPart_yields _ _ _ hfraction
  obtain ⟨es, rfl, hes⟩ := exponentPart_yields _ _ _ hexponent
  obtain ⟨c, t, rfl, hc, hsome⟩ | hnone := acceptAny_cases ['-'] s
  · obtain rfl : c = '-' := List.mem_singleton.1 hc
    rw [hsome] at hsign
    cases hsign
    exact ⟨_, by simp [signText], .intro true his hfs hes⟩
  · rw [hnone] at hsign
    cases hsign
    exact ⟨_, by simp [signText], .intro false his hfs hes⟩

/-- An integer is read back if no digit follows. -/
theorem integerPart_append {is rest : List Char} (h : IntegerText is) (hrest : EndsDigits rest) :
    integerPart.apply (is ++ rest) = (.ok (digitValues is), rest) := by
  rw [integerPart, apply_bind_of_ok (Rule.apply_peek _)]
  cases h with
  | zero =>
    rw [List.singleton_append, List.head?_cons]
    dsimp only
    rw [if_pos rfl, apply_bind_of_ok (Rule.apply_skip _), apply_bind_of_ok (Rule.apply_peek _),
      List.tail_cons]
    cases rest with
    | nil => rfl
    | cons c rest =>
      rw [List.head?_cons]
      dsimp only
      rw [hrest c rfl, if_neg Bool.false_ne_true]
      rfl
  | @digits d ds hd hds =>
    rw [List.cons_append, List.head?_cons]
    dsimp only
    rw [if_neg hd, if_pos (hds.digit d List.mem_cons_self), ← List.cons_append]
    exact digits_append hds.digit hrest

theorem digitValues_ne_nil {ds : List Char} (h : IsDigits ds) : digitValues ds ≠ [] := fun hnil =>
  h.ne_nil (List.map_eq_nil_iff.1 hnil)

/-- A fraction is read back if what follows would not go on with it or start one. -/
theorem fractionPart_append {fs rest : List Char} {fraction : List Nat}
    (h : FractionText fs fraction) (hrest : ∀ c ∈ rest.head?, c.isDigit = false ∧ c ≠ '.') :
    fractionPart.apply (fs ++ rest) = (.ok fraction, rest) := by
  rw [fractionPart]
  cases h with
  | none =>
    have hnone : (acceptAny ['.']).apply rest = (.ok none, rest) :=
      acceptAny_of_notMem fun c hc => by simpa using (hrest c hc).2
    rw [List.nil_append, apply_bind_of_ok hnone]
    rfl
  | @point ds hds =>
    have hdigits := digits_append hds.digit fun c hc => (hrest c hc).1
    rw [List.cons_append, apply_bind_of_ok (acceptAny_of_mem (by simp) _), apply_bind_of_ok hdigits]
    split
    · next hnil => exact absurd hnil (digitValues_ne_nil hds)
    · rfl

/-- An exponent is read back if what follows would not go on with it or start one. -/
theorem exponentPart_append {es rest : List Char} {exponent : Option Exponent}
    (h : ExponentText es exponent) (hrest : EndsNumber rest) :
    exponentPart.apply (es ++ rest) = (.ok exponent, rest) := by
  rw [exponentPart]
  cases h with
  | none =>
    have hnone : (acceptAny ['e', 'E']).apply rest = (.ok none, rest) := by
      refine acceptAny_of_notMem fun c hc he => ?_
      have halnum := (hrest c hc).1
      simp only [List.mem_cons, List.not_mem_nil, or_false] at he
      rcases he with rfl | rfl <;> exact absurd halnum (by decide)
    rw [List.nil_append, apply_bind_of_ok hnone]
    rfl
  | @plain e ds he hds =>
    obtain ⟨d, ds', hcons, hd⟩ := hds.head
    have hnone : (acceptAny ['+', '-']).apply (ds ++ rest) = (.ok none, ds ++ rest) := by
      refine acceptAny_of_notMem ?_
      rw [hcons]
      rintro c ⟨⟩
      simpa using ⟨ne_of_isDigit hd (by decide), ne_of_isDigit hd (by decide)⟩
    rw [List.cons_append, apply_bind_of_ok (acceptAny_of_mem he _), apply_bind_of_ok hnone,
      apply_bind_of_ok (digits_append hds.digit hrest.endsDigits)]
    split
    · next hnil => exact absurd hnil (digitValues_ne_nil hds)
    · rfl
  | @signed e sign ds he hsign hds =>
    rw [List.cons_append, List.cons_append, apply_bind_of_ok (acceptAny_of_mem he _),
      apply_bind_of_ok (acceptAny_of_mem hsign _),
      apply_bind_of_ok (digits_append hds.digit hrest.endsDigits)]
    split
    · next hnil => exact absurd hnil (digitValues_ne_nil hds)
    · simp

end Numeral

/-- **A number is read as a number,** whatever follows that does not go on with it. -/
theorem NumberText.apply {cs rest : List Char} {numeral : Numeral} (h : NumberText cs numeral)
    (hrest : EndsNumber rest) : Numeral.rule.apply (cs ++ rest) = (.ok numeral, rest) := by
  obtain ⟨negative, his, hfs, hes⟩ := h
  rename_i is fs es fraction exponent
  have hexponent := Numeral.exponentPart_append hes hrest
  have hfraction := Numeral.fractionPart_append hfs (hes.head hrest)
  have hinteger := Numeral.integerPart_append his
    (hfs.endsDigits fun c hc => (hes.head hrest c hc).1)
  have hsign : (Numeral.acceptAny ['-']).apply (signText negative ++ (is ++ (fs ++ (es ++ rest)))) =
      (.ok (if negative then some '-' else none), is ++ (fs ++ (es ++ rest))) := by
    cases negative with
    | true => exact Numeral.acceptAny_of_mem (by simp) _
    | false =>
      refine Numeral.acceptAny_of_notMem ?_
      obtain ⟨d, ds, rfl, hd⟩ := his.isDigits.head
      rintro c ⟨⟩
      simpa using ne_of_isDigit hd (by decide)
  simp only [List.append_assoc]
  rw [Numeral.rule, apply_bind_of_ok hsign, apply_bind_of_ok hinteger, apply_bind_of_ok hfraction,
    apply_bind_of_ok hexponent]
  cases negative <;> rfl

/-! ## Number tokens -/

open Lexer

/-- The tokenizer counts the digits up to the text that ends them. -/
theorem digitsLength_eq {ds rest : List Char} (hds : ∀ d ∈ ds, d.isDigit = true)
    (hrest : EndsDigits rest) : digitsLength (ds ++ rest) = ds.length := by
  rw [digitsLength, hrest.takeWhile_append hds]

/-- The tokenizer finds the same integer. -/
theorem IntegerText.integerLength?_eq {is rest : List Char} (h : IntegerText is)
    (hrest : EndsDigits rest) : integerLength? (is ++ rest) = some is.length := by
  cases h with
  | zero => rfl
  | @digits d ds hd hds =>
    have hlength := digitsLength_eq (fun c hc => hds.digit c (List.mem_cons_of_mem d hc)) hrest
    rw [List.cons_append, integerLength?, if_neg hd, if_pos (hds.digit d List.mem_cons_self),
      hlength, List.length_cons, Nat.add_comm]

/-- The tokenizer finds the same fraction. -/
theorem FractionText.fractionLength_eq {fs rest : List Char} {fraction : List Nat}
    (h : FractionText fs fraction) (hrest : ∀ c ∈ rest.head?, c.isDigit = false ∧ c ≠ '.') :
    fractionLength (fs ++ rest) = fs.length := by
  cases h with
  | none =>
    cases rest with
    | nil => rfl
    | cons c rest => rw [List.nil_append, fractionLength, if_neg fun h => (hrest c rfl).2 h.1]; rfl
  | @point ds hds =>
    have hlength := digitsLength_eq hds.digit fun c hc => (hrest c hc).1
    have hpos := List.length_pos_iff.2 hds.ne_nil
    rw [List.cons_append, fractionLength, hlength, if_pos ⟨rfl, by omega⟩, List.length_cons,
      Nat.add_comm]

/-- The tokenizer finds the same exponent. -/
theorem ExponentText.exponentLength_eq {es : List Char} {exponent : Option Exponent}
    (h : ExponentText es exponent) : exponentLength es = es.length := by
  have hend : EndsDigits [] := fun c hc => nomatch hc
  cases h with
  | none => rfl
  | @plain e ds he hds =>
    obtain ⟨d, ds', hcons, hd⟩ := hds.head
    have hsign : signLength ['+', '-'] ds = 0 := by
      rw [hcons, signLength, if_neg]
      simpa using ⟨ne_of_isDigit hd (by decide), ne_of_isDigit hd (by decide)⟩
    have hlength := digitsLength_eq hds.digit hend
    have hpos := List.length_pos_iff.2 hds.ne_nil
    rw [List.append_nil] at hlength
    simp only [exponentLength, hsign, List.drop_zero, hlength, List.length_cons]
    rw [if_pos ⟨by simpa using he, by omega⟩]
    omega
  | @signed e sign ds he hsign hds =>
    have hone : signLength ['+', '-'] (sign :: ds) = 1 := if_pos hsign
    have hlength := digitsLength_eq hds.digit hend
    have hpos := List.length_pos_iff.2 hds.ne_nil
    rw [List.append_nil] at hlength
    simp only [exponentLength, hone, List.drop_succ_cons, List.drop_zero, hlength, List.length_cons]
    rw [if_pos ⟨by simpa using he, by omega⟩]
    omega

/-- The tokenizer finds the same sign. -/
theorem signLength_signText (negative : Bool) {is : List Char} (h : IntegerText is)
    (rest : List Char) :
    signLength ['-'] (signText negative ++ (is ++ rest)) = (signText negative).length := by
  cases negative with
  | true => rfl
  | false =>
    obtain ⟨d, ds, rfl, hd⟩ := h.isDigits.head
    exact if_neg (by simpa using ne_of_isDigit hd (by decide))

/-- **A number is one token.** -/
theorem NumberText.numberLength?_eq {cs : List Char} {numeral : Numeral}
    (h : NumberText cs numeral) : numberLength? cs = some cs.length := by
  obtain ⟨negative, his, hfs, hes⟩ := h
  rename_i is fs es fraction exponent
  have hend : EndsNumber [] := fun c hc => nomatch hc
  have hhead : ∀ c ∈ es.head?, c.isDigit = false ∧ c ≠ '.' := by
    have := hes.head hend
    rwa [List.append_nil] at this
  have hsign := signLength_signText negative his (fs ++ es)
  have hinteger := his.integerLength?_eq (hfs.endsDigits fun c hc => (hhead c hc).1)
  have hfraction := hfs.fractionLength_eq hhead
  refine numberLength?_eq_some_iff.2 ⟨is.length, ?_, ?_⟩
  · rw [hsign, List.drop_left, hinteger]
  · rw [hsign, ← List.append_assoc, ← List.length_append, List.drop_left, hfraction,
      ← List.append_assoc, ← List.length_append, List.drop_left, hes.exponentLength_eq,
      ← List.length_append]

/-- What the tokenizer counts as digits is the run of them in front. -/
theorem take_digitsLength (cs : List Char) :
    cs.take (digitsLength cs) = cs.takeWhile Char.isDigit :=
  (List.prefix_iff_eq_take.1 (List.takeWhile_prefix _)).symm

/-- What the tokenizer counts as digits consists of these. -/
theorem isDigits_take {cs : List Char} (h : digitsLength cs ≠ 0) :
    IsDigits (cs.take (digitsLength cs)) := by
  rw [take_digitsLength]
  exact ⟨fun hnil => h (congrArg List.length hnil), List.all_eq_true.1 List.all_takeWhile⟩

/-- What the tokenizer finds as an integer is one. -/
theorem integerText_take {cs : List Char} {n : Nat} (h : integerLength? cs = some n) :
    IntegerText (cs.take n) := by
  cases cs with
  | nil => cases h
  | cons c cs =>
    rw [integerLength?] at h
    split at h
    · next hc =>
      cases h
      rw [hc]
      exact .zero
    · next hc =>
      split at h
      · next hd =>
        cases h
        rw [Nat.add_comm, List.take_succ_cons, take_digitsLength]
        exact .digits hc ⟨by simp,
          List.forall_mem_cons.2 ⟨hd, List.all_eq_true.1 List.all_takeWhile⟩⟩
      · cases h

/-- What the tokenizer finds as a fraction is one, or nothing. -/
theorem fractionText_take (cs : List Char) :
    ∃ fraction, FractionText (cs.take (fractionLength cs)) fraction := by
  cases cs with
  | nil => exact ⟨[], .none⟩
  | cons c cs =>
    rw [fractionLength]
    split
    · next h =>
      obtain ⟨rfl, hne⟩ := h
      rw [Nat.add_comm, List.take_succ_cons]
      exact ⟨_, .point (isDigits_take hne)⟩
    · exact ⟨[], .none⟩

/-- A text that is counted as digits to its end consists of these. -/
theorem isDigits_of_length {ds : List Char} (h : digitsLength ds = ds.length)
    (hne : digitsLength ds ≠ 0) : IsDigits ds := by
  have := isDigits_take hne
  rwa [h, List.take_length] at this

/-- A text that the tokenizer finds to be an exponent as a whole is one, or nothing. -/
theorem exponentText_of_length {cs : List Char} (h : exponentLength cs = cs.length) :
    ∃ exponent, ExponentText cs exponent := by
  cases cs with
  | nil => exact ⟨none, .none⟩
  | cons e cs =>
    simp only [exponentLength, List.length_cons] at h
    split at h
    · next hc =>
      obtain ⟨hletter, hne⟩ := hc
      have he : e ∈ ['e', 'E'] := by simpa using hletter
      cases cs with
      | nil => exact absurd rfl hne
      | cons c ds =>
        by_cases hc : c ∈ ['+', '-']
        · have hone : signLength ['+', '-'] (c :: ds) = 1 := if_pos hc
          simp only [hone, List.drop_succ_cons, List.drop_zero, List.length_cons] at h hne
          exact ⟨_, .signed he hc (isDigits_of_length (by omega) hne)⟩
        · have hnone : signLength ['+', '-'] (c :: ds) = 0 := if_neg hc
          simp only [hnone, List.drop_zero] at h hne
          exact ⟨_, .plain he (isDigits_of_length (by omega) hne)⟩
    · omega

/-- **A token of a number is a number.** -/
theorem exists_numberText {cs : List Char} (h : numberLength? cs = some cs.length) :
    ∃ numeral, NumberText cs numeral := by
  obtain ⟨i, hi, hlength⟩ := numberLength?_eq_some_iff.1 h
  generalize hsign : signLength ['-'] cs = sign at hi hlength
  generalize hf : fractionLength (cs.drop (sign + i)) = f at hlength
  have his := integerText_take hi
  obtain ⟨fraction, hfs⟩ := fractionText_take (cs.drop (sign + i))
  obtain ⟨exponent, hes⟩ : ∃ exponent, ExponentText (cs.drop (sign + i + f)) exponent :=
    exponentText_of_length (by rw [List.length_drop]; omega)
  have htext : ∃ negative, cs.take sign = signText negative := by
    rw [← hsign]
    cases cs with
    | nil => exact ⟨false, rfl⟩
    | cons c cs =>
      by_cases hc : c ∈ ['-']
      · obtain rfl := List.mem_singleton.1 hc
        exact ⟨true, rfl⟩
      · refine ⟨false, ?_⟩
        rw [signLength, if_neg hc]
        rfl
  obtain ⟨negative, hnegative⟩ := htext
  rw [hf] at hfs
  have hsplit : cs = signText negative ++ ((cs.drop sign).take i ++
      ((cs.drop (sign + i)).take f ++ cs.drop (sign + i + f))) := by
    have hdrop : cs.drop (sign + i + f) = (cs.drop (sign + i)).drop f := List.drop_drop.symm
    rw [← hnegative, hdrop, List.take_append_drop, ← List.drop_drop, List.take_append_drop,
      List.take_append_drop]
  rw [hsplit]
  exact ⟨_, .intro negative his hfs hes⟩

end FilterQuery.Json
