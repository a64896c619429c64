import FilterQuery.Proofs.Token.Layout

/-!
# Proofs/Token/Respelling — other texts with the same tokens

    a.b = 1 ──spread──▸ · a ↵ . · b ·· = · 1          the same words, elsewhere
    a.b = 1 ──respell──▸ a.b === 1                     one word spelled in another way

The lexemes of a text, with white space between them and around them, are a text of the same words
(`Lexes.of_woven`): white space goes on with no lexeme, whatever its kind.  And the comparators of
equality have synonyms.  All spellings of one of them start with the same character, and the tokens
before it see no further than that (`Lexer.scan_congr`), so only what follows has to be looked at.
-/

namespace FilterQuery

/-! ## Lexemes with white space between them -/

/-- The lexemes one after the other, each with the text that comes before it, and a text at the
end. -/
def weave (pieces : List (List Char × String)) (trail : List Char) : List Char :=
  pieces.foldr (fun piece text => piece.1 ++ (piece.2.toList ++ text)) trail

/-- There is nothing but white space around the lexemes, and some between any two of them. -/
structure Spaced (pieces : List (List Char × String)) (trail : List Char) : Prop where
  blank : ∀ piece ∈ pieces, ∀ c ∈ piece.1, Text.isBlank c = true
  apart : ∀ piece ∈ pieces.tail, piece.1 ≠ []
  trail : ∀ c ∈ trail, Text.isBlank c = true

/-- **White space goes on with no lexeme.** -/
theorem Token.Kind.endsBefore_of_isBlank (kind : Token.Kind) {c : Char}
    (h : Text.isBlank c = true) : kind.endsBefore c = true := by
  have hne : ∀ d, Text.isBlank d = false → c ≠ d := by
    rintro d hd rfl
    exact Bool.false_ne_true (hd.symm.trans h)
  have halnum : c.isAlphanum = false :=
    Bool.eq_false_iff.2 fun hc => hne c (isBlank_eq_false_of_isAlphanum hc) rfl
  have hequal : c ≠ '=' := hne '=' (by decide)
  have hpoint : c ≠ '.' := hne '.' (by decide)
  cases kind with
  | literal l => cases l <;> simp [endsBefore, halnum, hpoint]
  | _ => simp [endsBefore, halnum, hequal]

namespace Lexes

/-- White space may be put in front. -/
theorem of_blanks {blanks cs rest : List Char} {ws : List Word}
    (hblank : ∀ c ∈ blanks, Text.isBlank c = true) (h : Lexes cs ws rest) :
    Lexes (blanks ++ cs) ws rest := by
  induction blanks with
  | nil => exact h
  | cons b blanks ih =>
    obtain ⟨hb, hblanks⟩ := List.forall_mem_cons.1 hblank
    exact .blank hb (ih hblanks)

/-- **Lexemes with white space between them are the words of the text.** -/
theorem of_woven {ws : List Word} (hws : ∀ w ∈ ws, w.IsLexeme)
    {pieces : List (List Char × String)} {trail : List Char} (hspaced : Spaced pieces trail)
    (hpieces : pieces.map Prod.snd = ws.map Prod.snd) : Lexes (weave pieces trail) ws [] := by
  induction pieces generalizing ws with
  | nil =>
    obtain rfl := List.map_eq_nil_iff.1 hpieces.symm
    have hend : Lexes [] [] [] := .done
    have htrail := of_blanks hspaced.trail hend
    rwa [List.append_nil] at htrail
  | cons piece pieces ih =>
    obtain ⟨w, ws, rfl, hw, hmore⟩ := List.map_eq_cons_iff.1 hpieces.symm
    obtain ⟨hlexeme, hlexemes⟩ := List.forall_mem_cons.1 hws
    obtain ⟨hblank, hblanks⟩ := List.forall_mem_cons.1 hspaced.blank
    have hrest := ih hlexemes
      ⟨hblanks, fun p hp => hspaced.apart p (List.mem_of_mem_tail hp), hspaced.trail⟩ hmore.symm
    have hnext : ∀ c ∈ (weave pieces trail).head?, w.1.endsBefore c = true := by
      intro c hc
      refine w.1.endsBefore_of_isBlank ?_
      cases pieces with
      | nil => exact hspaced.trail c (List.mem_of_mem_head? hc)
      | cons next pieces =>
        -- the white space before the next lexeme is not empty
        obtain ⟨gap, lexeme⟩ := next
        have hgap : gap ≠ [] := hspaced.apart (gap, lexeme) List.mem_cons_self
        cases gap with
        | nil => exact absurd rfl hgap
        | cons b gap =>
          obtain rfl : b = c := Option.some.inj hc
          exact hblanks (b :: gap, lexeme) List.mem_cons_self b List.mem_cons_self
    have hword := (lexeme hlexeme hnext).append hrest
    rw [hw] at hword
    exact of_blanks hblank hword

end Lexes

namespace Lexer

/-! ## How far a token sees -/

/-- A run that ends within `xs`, or with it, is ended by the character that follows, and so does not
depend on what comes after. -/
theorem takeWhile_congr {α : Type} {p : α → Bool} {xs ys : List α} {c : α}
    (h : ((xs ++ c :: ys).takeWhile p).length ≤ xs.length) (zs : List α) :
    (xs ++ c :: zs).takeWhile p = (xs ++ c :: ys).takeWhile p := by
  induction xs with
  | nil =>
    have hc : ¬ p c = true := fun hc => by
      rw [List.nil_append, List.takeWhile_cons_of_pos hc] at h
      exact absurd h (by simp)
    rw [List.nil_append, List.nil_append, List.takeWhile_cons_of_neg hc,
      List.takeWhile_cons_of_neg hc]
  | cons x xs ih =>
    by_cases hx : p x = true
    · rw [List.cons_append, List.takeWhile_cons_of_pos hx] at h
      rw [List.cons_append, List.cons_append, List.takeWhile_cons_of_pos hx,
        List.takeWhile_cons_of_pos hx, ih (Nat.le_of_succ_le_succ h)]
    · rw [List.cons_append, List.cons_append, List.takeWhile_cons_of_neg hx,
        List.takeWhile_cons_of_neg hx]

/-- A counted run that ends within `xs`, or with it, does not depend on what comes after the next
character. -/
theorem runLength_congr {c d : Char} {most : Nat} {xs ys : List Char}
    (h : runLength d most (xs ++ c :: ys) ≤ xs.length) (zs : List Char) :
    runLength d most (xs ++ c :: zs) = runLength d most (xs ++ c :: ys) := by
  simp only [runLength, List.take_append] at h ⊢
  rcases Nat.lt_or_ge xs.length most with hlt | hge
  · obtain ⟨k, hk⟩ : ∃ k, most - xs.length = k + 1 := ⟨most - xs.length - 1, by omega⟩
    have hwhole : xs.take most = xs := List.take_of_length_le (Nat.le_of_lt hlt)
    rw [hwhole, hk, List.take_succ_cons] at h ⊢
    exact congrArg List.length (takeWhile_congr h _)
  · have hnone : most - xs.length = 0 := by omega
    rw [hnone, List.take_zero, List.take_zero]

/-- A character that no number contains. -/
def StopsNumber (c : Char) : Prop :=
  c.isAlphanum = false ∧ c ≠ '.' ∧ c ≠ '+' ∧ c ≠ '-'

/-- A character that stops numbers stops exponents: nothing behind it counts. -/
theorem exponentLength_append_stop {c : Char} (hc : StopsNumber c) (cs ds : List Char) :
    exponentLength (cs ++ c :: ds) = exponentLength cs := by
  obtain ⟨halnum, -, hplus, hminus⟩ := hc
  have hdigit : ∀ d ∈ (c :: ds).head?, d.isDigit = false := by
    rintro d ⟨⟩
    exact (Bool.or_eq_false_iff.1 halnum).2
  have hsign : signLength ['+', '-'] (c :: ds) = 0 := by simp [signLength, hplus, hminus]
  cases cs with
  | nil =>
    have hletter : ¬ (c = 'e' ∨ c = 'E') := by
      rintro (rfl | rfl) <;> exact absurd halnum (by decide)
    simp [exponentLength, hletter]
  | cons x xs =>
    simp only [List.cons_append, exponentLength]
    cases xs with
    | nil =>
      have hnone := digitsLength_append [] hdigit
      rw [List.nil_append] at hnone
      rw [List.nil_append, hsign, List.drop_zero, hnone]
      rfl
    | cons y ys =>
      have hle : signLength ['+', '-'] (y :: ys) ≤ (y :: ys).length := by
        have := signLength_le ['+', '-'] (y :: ys)
        rw [List.length_cons]
        omega
      rw [signLength_append _ (List.cons_ne_nil y ys), List.drop_append_of_le_length hle,
        digitsLength_append _ hdigit]

/-- A character that stops numbers stops integers: nothing behind it counts. -/
theorem integerLength?_append_stop {c : Char} (hc : StopsNumber c) (cs ds : List Char) :
    integerLength? (cs ++ c :: ds) = integerLength? cs := by
  have hdigit : c.isDigit = false := (Bool.or_eq_false_iff.1 hc.1).2
  cases cs with
  | nil =>
    have hzero : c ≠ '0' := by
      rintro rfl
      exact absurd hdigit (by decide)
    simp [integerLength?, hzero, hdigit]
  | cons x xs =>
    rw [List.cons_append, integerLength?, integerLength?, digitsLength_append]
    rintro d ⟨⟩
    exact hdigit

/-- **Nothing behind a character that stops numbers counts for a number before it.** -/
theorem numberLength?_append_stop {c : Char} (hc : StopsNumber c) {cs : List Char} (hcs : cs ≠ [])
    (ds : List Char) : numberLength? (cs ++ c :: ds) = numberLength? cs := by
  have hfraction : ∀ d ∈ (c :: ds).head?, d.isDigit = false ∧ d ≠ '.' := by
    rintro d ⟨⟩
    exact ⟨(Bool.or_eq_false_iff.1 hc.1).2, hc.2.1⟩
  have hsign : signLength ['-'] cs ≤ cs.length := by
    have := signLength_le ['-'] cs
    have := List.length_pos_iff.2 hcs
    omega
  rw [numberLength?, numberLength?, signLength_append _ hcs,
    List.drop_append_of_le_length hsign, integerLength?_append_stop hc]
  rcases hinteger : integerLength? (cs.drop (signLength ['-'] cs)) with _ | i
  · rfl
  · have hwhole : signLength ['-'] cs + i ≤ cs.length := by
      have := integerLength?_le hinteger
      rw [List.length_drop] at this
      omega
    have hparts : signLength ['-'] cs + i +
        fractionLength (cs.drop (signLength ['-'] cs + i)) ≤ cs.length := by
      have := fractionLength_le (cs.drop (signLength ['-'] cs + i))
      rw [List.length_drop] at this
      omega
    simp only [Option.bind_eq_bind, Option.bind_some]
    rw [List.drop_append_of_le_length hwhole, fractionLength_append _ hfraction,
      List.drop_append_of_le_length hparts, exponentLength_append_stop hc]

/-- **A token that ends before a sign of comparison is the same whatever comes after the sign.** -/
theorem scan_congr {front ds : List Char} {c : Char} {kind : Token.Kind} {n : Nat}
    (hc : c = '=' ∨ c = '!') (h : scan (front ++ c :: ds) = some (kind, n))
    (hn : n ≤ front.length) (ds' : List Char) : scan (front ++ c :: ds') = some (kind, n) := by
  have hstop : StopsNumber c := by
    rcases hc with rfl | rfl <;> exact ⟨by decide, by decide, by decide, by decide⟩
  cases front with
  | nil => exact absurd (scan_pos h) (by simpa using hn)
  | cons x xs =>
    rw [List.cons_append] at h ⊢
    rw [List.length_cons] at hn
    rcases first_of_scan h with ⟨p, rfl⟩ | hcomparator | hnumber | rfl | halpha
    · rw [scan_punct] at h ⊢
      exact h
    · obtain ⟨most, classify, hscan, hclassify⟩ := scan_comparator hcomparator
      rw [hscan] at h ⊢
      obtain ⟨hrun, -⟩ := hclassify _ (runLength_le '=' most _) _ _ h
      have hle : runLength '=' most (xs ++ c :: ds) ≤ xs.length := by omega
      rwa [runLength_congr hle ds']
    · rw [scan_number hnumber] at h ⊢
      rw [← List.cons_append, numberLength?_append_stop hstop (List.cons_ne_nil x xs)] at h ⊢
      exact h
    · rw [scan_string] at h ⊢
      obtain ⟨k, hk, heq⟩ := Option.map_eq_some_iff.1 h
      obtain ⟨rfl, hlength⟩ := Prod.mk.inj heq
      have hcut := stringTailLength?_take hk (m := xs.length) (by omega)
      rw [List.take_left] at hcut
      rw [stringTailLength?_append hcut]
      rwa [hk] at h
    · rw [scan_word halpha] at h ⊢
      obtain ⟨-, hlength⟩ := Prod.mk.inj (Option.some.inj h)
      have hle : ((x :: xs ++ c :: ds).takeWhile Char.isAlphanum).length ≤ (x :: xs).length := by
        rw [List.length_cons, List.cons_append, hlength]
        exact hn
      have hsame := takeWhile_congr hle ds'
      rw [List.cons_append, List.cons_append] at hsame
      rwa [hsame]

end Lexer

end FilterQuery
