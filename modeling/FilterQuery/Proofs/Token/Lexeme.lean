import FilterQuery.Proofs.Token.Text

/-!
# Proofs/Token/Lexeme — a token is the same out of its text and in another one

A lexeme is a text that is one token.  Whatever `scan` finds at the front of a text is a lexeme
(`scan_take`): no token depends on what stands behind it, once it has been cut off
(`scan_take_of_le`).  Conversely a
lexeme is found again at the front of a longer text, unless the next character would go on with it
(`scan_append`); which characters do is the same for all lexemes of a kind (`Token.Kind.endsBefore`).
-/

namespace FilterQuery.Lexer

/-! ## Runs of characters -/

/-- Cutting a list behind its run leaves the run as it is. -/
theorem takeWhile_take_of_le {α : Type} {p : α → Bool} {xs : List α} {n : Nat}
    (h : (xs.takeWhile p).length ≤ n) : (xs.take n).takeWhile p = xs.takeWhile p := by
  induction xs generalizing n with
  | nil => rw [List.take_nil]
  | cons x xs ih =>
    by_cases hx : p x = true
    · rw [List.takeWhile_cons_of_pos hx, List.length_cons] at h
      obtain ⟨m, rfl⟩ : ∃ m, n = m + 1 := ⟨n - 1, by omega⟩
      rw [List.take_succ_cons, List.takeWhile_cons_of_pos hx, List.takeWhile_cons_of_pos hx,
        ih (by omega)]
    · rw [List.takeWhile_cons_of_neg hx]
      cases n with
      | zero => rfl
      | succ n => rw [List.take_succ_cons, List.takeWhile_cons_of_neg hx]

/-- A run does not go on into what is appended if the first element there would end it. -/
theorem takeWhile_append_of_head {α : Type} {p : α → Bool} (xs : List α) {ys : List α}
    (h : ∀ y ∈ ys.head?, p y = false) : (xs ++ ys).takeWhile p = xs.takeWhile p := by
  induction xs with
  | nil =>
    cases ys with
    | nil => rfl
    | cons y ys =>
      have hy : ¬ p y = true := by simp [h y rfl]
      rw [List.nil_append, List.takeWhile_cons_of_neg hy, List.takeWhile_nil]
  | cons x xs ih =>
    by_cases hx : p x = true
    · rw [List.cons_append, List.takeWhile_cons_of_pos hx, List.takeWhile_cons_of_pos hx, ih]
    · rw [List.cons_append, List.takeWhile_cons_of_neg hx, List.takeWhile_cons_of_neg hx]

theorem mem_head?_of_take {α : Type} {ys : List α} {n : Nat} {y : α}
    (h : y ∈ (ys.take n).head?) : y ∈ ys.head? := by
  cases ys with
  | nil => simp at h
  | cons a ys =>
    cases n with
    | zero => simp at h
    | succ n => exact h

theorem digitsLength_le (cs : List Char) : digitsLength cs ≤ cs.length :=
  (List.takeWhile_sublist _).length_le

/-- A run of digits is read again from any piece that holds all of it. -/
theorem digitsLength_take {cs : List Char} {n : Nat} (h : digitsLength cs ≤ n) :
    digitsLength (cs.take n) = digitsLength cs :=
  congrArg List.length (takeWhile_take_of_le h)

/-- A run of digits is as long as before if no digit is appended right after the text. -/
theorem digitsLength_append (cs : List Char) {ds : List Char}
    (h : ∀ d ∈ ds.head?, d.isDigit = false) : digitsLength (cs ++ ds) = digitsLength cs :=
  congrArg List.length (takeWhile_append_of_head cs h)

/-- A run counts no more characters than it is asked to. -/
theorem runLength_le (c : Char) (most : Nat) (cs : List Char) : runLength c most cs ≤ most :=
  Nat.le_trans (List.takeWhile_sublist _).length_le (List.length_take_le most cs)

theorem runLength_le_length (c : Char) (most : Nat) (cs : List Char) :
    runLength c most cs ≤ cs.length :=
  Nat.le_trans (List.takeWhile_sublist _).length_le (List.take_sublist most cs).length_le

/-- A run is read again from any piece that holds all of it. -/
theorem runLength_take {c : Char} {most n : Nat} {cs : List Char} (h : runLength c most cs ≤ n) :
    runLength c most (cs.take n) = runLength c most cs := by
  rw [runLength, List.take_take, Nat.min_comm, ← List.take_take]
  exact congrArg List.length (takeWhile_take_of_le h)

/-- What starts with another character does not make a run longer. -/
theorem runLength_append {c : Char} {most : Nat} (cs : List Char) {ds : List Char}
    (h : ∀ d ∈ ds.head?, d ≠ c) : runLength c most (cs ++ ds) = runLength c most cs := by
  rw [runLength, List.take_append]
  exact congrArg List.length (takeWhile_append_of_head _ fun d hd =>
    beq_eq_false_iff_ne.2 (h d (mem_head?_of_take hd)))

/-! ## Numbers -/

/-- An integer is read again from any piece that holds all of it. -/
theorem integerLength?_take {cs : List Char} {n i : Nat} (h : integerLength? cs = some i)
    (hi : i ≤ n) : integerLength? (cs.take n) = some i := by
  cases cs with
  | nil => cases h
  | cons c cs =>
    obtain ⟨m, rfl⟩ : ∃ m, n = m + 1 := ⟨n - 1, by have := integerLength?_pos h; omega⟩
    rw [List.take_succ_cons]
    rw [integerLength?] at h ⊢
    split at h
    · next hc => rwa [if_pos hc]
    · next hc =>
      split at h
      · next hd =>
        cases h
        rw [if_neg hc, if_pos hd, digitsLength_take (by omega)]
      · cases h

/-- An integer stays the same if what follows it starts with no digit. -/
theorem integerLength?_append {cs ds : List Char} {i : Nat} (h : integerLength? cs = some i)
    (hds : ∀ d ∈ ds.head?, d.isDigit = false) : integerLength? (cs ++ ds) = some i := by
  cases cs with
  | nil => cases h
  | cons c cs =>
    rw [List.cons_append, integerLength?, digitsLength_append cs hds]
    exact h

/-- A fraction is read again from any piece that holds all of it. -/
theorem fractionLength_take {cs : List Char} {n : Nat} (h : fractionLength cs ≤ n) :
    fractionLength (cs.take n) = fractionLength cs := by
  cases cs with
  | nil => rw [List.take_nil]
  | cons c cs =>
    cases n with
    | zero => exact (Nat.le_zero.1 h).symm
    | succ n =>
      rw [List.take_succ_cons]
      rw [fractionLength] at h ⊢
      rw [fractionLength]
      by_cases hdigits : digitsLength cs ≤ n
      · rw [digitsLength_take hdigits]
      · have hne : digitsLength cs ≠ 0 := by omega
        have hc : ¬ (c = '.' ∧ digitsLength cs ≠ 0) := fun hc => by
          rw [if_pos hc] at h
          omega
        have hc' : c ≠ '.' := fun hdot => hc ⟨hdot, hne⟩
        rw [if_neg hc, if_neg fun hdot => hc' hdot.1]

/-- A fraction stays the same, or stays missing, if neither a digit nor a point follows. -/
theorem fractionLength_append (cs : List Char) {ds : List Char}
    (h : ∀ d ∈ ds.head?, d.isDigit = false ∧ d ≠ '.') :
    fractionLength (cs ++ ds) = fractionLength cs := by
  cases cs with
  | nil =>
    cases ds with
    | nil => rfl
    | cons d ds =>
      rw [List.nil_append, fractionLength, if_neg fun hd => (h d rfl).2 hd.1, fractionLength]
  | cons c cs =>
    rw [List.cons_append, fractionLength, digitsLength_append cs fun d hd => (h d hd).1,
      fractionLength]

theorem integerLength?_le {cs : List Char} {i : Nat} (h : integerLength? cs = some i) :
    i ≤ cs.length := by
  cases cs with
  | nil => cases h
  | cons c cs =>
    have := digitsLength_le cs
    rw [integerLength?] at h
    rw [List.length_cons]
    repeat' split at h
    all_goals cases h <;> omega

theorem fractionLength_le (cs : List Char) : fractionLength cs ≤ cs.length := by
  cases cs with
  | nil => exact Nat.le_refl _
  | cons c cs =>
    have := digitsLength_le cs
    rw [fractionLength, List.length_cons]
    split <;> omega

theorem exponentLength_le (cs : List Char) : exponentLength cs ≤ cs.length := by
  cases cs with
  | nil => exact Nat.le_refl _
  | cons c cs =>
    have hdigits := digitsLength_le (cs.drop (signLength ['+', '-'] cs))
    rw [List.length_drop] at hdigits
    simp only [exponentLength, List.length_cons]
    split
    · omega
    · omega

theorem signLength_le (signs cs : List Char) : signLength signs cs ≤ 1 := by
  cases cs with
  | nil => exact Nat.zero_le _
  | cons c cs =>
    rw [signLength]
    split <;> omega

/-- Whether there is a sign is told by the first character. -/
theorem signLength_take (signs cs : List Char) {n : Nat} (h : 0 < n) :
    signLength signs (cs.take n) = signLength signs cs := by
  obtain ⟨m, rfl⟩ : ∃ m, n = m + 1 := ⟨n - 1, by omega⟩
  cases cs <;> rfl

/-- What follows a text that is not empty does not give it a sign. -/
theorem signLength_append (signs : List Char) {cs : List Char} (h : cs ≠ []) (ds : List Char) :
    signLength signs (cs ++ ds) = signLength signs cs := by
  cases cs with
  | nil => exact absurd rfl h
  | cons c cs => rfl

/-- An exponent is read again from any piece that holds all of it. -/
theorem exponentLength_take {cs : List Char} {n : Nat} (h : exponentLength cs ≤ n) :
    exponentLength (cs.take n) = exponentLength cs := by
  cases cs with
  | nil => rw [List.take_nil]
  | cons c cs =>
    cases n with
    | zero => exact (Nat.le_zero.1 h).symm
    | succ n =>
      rw [List.take_succ_cons]
      simp only [exponentLength] at h ⊢
      cases n with
      | zero =>
        -- the letter alone is no exponent, so there is none in the longer text either
        split at h
        · omega
        · next hc => rw [if_neg hc]; simp [digitsLength]
      | succ n =>
        rw [signLength_take _ _ (Nat.succ_pos n), List.drop_take]
        by_cases hdigits : digitsLength (cs.drop (signLength ['+', '-'] cs)) ≤
            n + 1 - signLength ['+', '-'] cs
        · rw [digitsLength_take hdigits]
        · have hc : ¬ ((c = 'e' ∨ c = 'E') ∧
              digitsLength (cs.drop (signLength ['+', '-'] cs)) ≠ 0) := fun hc => by
            rw [if_pos hc] at h
            omega
          have hc' : ¬ (c = 'e' ∨ c = 'E') := fun hletter => hc ⟨hletter, by omega⟩
          rw [if_neg hc, if_neg fun hletter => hc' hletter.1]

/-- A text that is an exponent as a whole stays one if no letter or digit follows. -/
theorem exponentLength_append {cs ds : List Char} (h : exponentLength cs = cs.length)
    (hds : ∀ d ∈ ds.head?, d.isAlphanum = false) : exponentLength (cs ++ ds) = cs.length := by
  have hdigit : ∀ d ∈ ds.head?, d.isDigit = false := fun d hd =>
    (Bool.or_eq_false_iff.1 (hds d hd)).2
  cases cs with
  | nil =>
    cases ds with
    | nil => rfl
    | cons d ds =>
      have hd : ¬ (d = 'e' ∨ d = 'E') := by
        have := hds d rfl
        rintro (rfl | rfl) <;> exact absurd this (by decide)
      simp [exponentLength, hd]
  | cons c cs =>
    simp only [exponentLength, List.length_cons] at h
    split at h
    · next hc =>
      have hne : cs ≠ [] := by
        rintro rfl
        exact hc.2 rfl
      have hsign : signLength ['+', '-'] cs ≤ cs.length := by
        have := signLength_le ['+', '-'] cs
        have := List.length_pos_iff.2 hne
        omega
      simp only [List.cons_append, exponentLength]
      rw [signLength_append _ hne, List.drop_append_of_le_length hsign,
        digitsLength_append _ hdigit, if_pos hc, List.length_cons]
      omega
    · omega

/-- The parts of a number, each where the one before it ends. -/
theorem numberLength?_eq_some_iff {cs : List Char} {n : Nat} :
    numberLength? cs = some n ↔ ∃ i, integerLength? (cs.drop (signLength ['-'] cs)) = some i ∧
      n = signLength ['-'] cs + i + fractionLength (cs.drop (signLength ['-'] cs + i)) +
        exponentLength (cs.drop (signLength ['-'] cs + i +
          fractionLength (cs.drop (signLength ['-'] cs + i)))) := by
  rw [numberLength?]
  constructor
  · intro h
    obtain ⟨i, hi, hn⟩ := Option.bind_eq_some_iff.1 h
    exact ⟨i, hi, (Option.some.inj hn).symm⟩
  · rintro ⟨i, hi, rfl⟩
    exact Option.bind_eq_some_iff.2 ⟨i, hi, rfl⟩

/-- A number is no longer than the text. -/
theorem numberLength?_le {cs : List Char} {n : Nat} (h : numberLength? cs = some n) :
    n ≤ cs.length := by
  obtain ⟨i, hi, hn⟩ := numberLength?_eq_some_iff.1 h
  have hpos := integerLength?_pos hi
  have hinteger := integerLength?_le hi
  have hfraction := fractionLength_le (cs.drop (signLength ['-'] cs + i))
  have hexponent := exponentLength_le (cs.drop (signLength ['-'] cs + i +
    fractionLength (cs.drop (signLength ['-'] cs + i))))
  simp only [List.length_drop] at hinteger hfraction hexponent
  omega

/-- **A number is read again from any piece that holds all of it:** its parts are read one behind
the other, and the piece is cut behind the last one. -/
theorem numberLength?_take {cs : List Char} {n m : Nat} (h : numberLength? cs = some n)
    (hm : n ≤ m) : numberLength? (cs.take m) = some n := by
  have hpos := numberLength?_pos h
  obtain ⟨i, hi, hn⟩ := numberLength?_eq_some_iff.1 h
  have hsign : signLength ['-'] (cs.take m) = signLength ['-'] cs :=
    signLength_take _ _ (Nat.lt_of_lt_of_le hpos hm)
  refine numberLength?_eq_some_iff.2 ⟨i, ?_, ?_⟩
  · rw [hsign, List.drop_take]
    exact integerLength?_take hi (by omega)
  · have hfraction : fractionLength ((cs.take m).drop (signLength ['-'] cs + i)) =
        fractionLength (cs.drop (signLength ['-'] cs + i)) := by
      rw [List.drop_take, fractionLength_take (by omega)]
    rw [hsign, hfraction, List.drop_take, exponentLength_take (by omega)]
    exact hn

/-- **A text that is a number as a whole stays one** if what follows could go on with none of its
parts. -/
theorem numberLength?_append {cs ds : List Char} (h : numberLength? cs = some cs.length)
    (hds : ∀ d ∈ ds.head?, d.isAlphanum = false ∧ d ≠ '.') :
    numberLength? (cs ++ ds) = some cs.length := by
  have hdigit : ∀ d ∈ ds.head?, d.isDigit = false := fun d hd =>
    (Bool.or_eq_false_iff.1 (hds d hd).1).2
  have hne : cs ≠ [] := List.length_pos_iff.1 (numberLength?_pos h)
  obtain ⟨i, hi, hn⟩ := numberLength?_eq_some_iff.1 h
  have hsign := signLength_append ['-'] hne ds
  refine numberLength?_eq_some_iff.2 ⟨i, ?_, ?_⟩
  · rw [hsign, List.drop_append_of_le_length (by omega)]
    exact integerLength?_append hi hdigit
  · have hfraction : fractionLength ((cs ++ ds).drop (signLength ['-'] cs + i)) =
        fractionLength (cs.drop (signLength ['-'] cs + i)) := by
      rw [List.drop_append_of_le_length (by omega)]
      exact fractionLength_append _ fun d hd => ⟨hdigit d hd, (hds d hd).2⟩
    have hcomplete : exponentLength (cs.drop (signLength ['-'] cs + i +
        fractionLength (cs.drop (signLength ['-'] cs + i)))) = (cs.drop (signLength ['-'] cs + i +
        fractionLength (cs.drop (signLength ['-'] cs + i)))).length := by
      rw [List.length_drop]
      omega
    have hexponent := exponentLength_append hcomplete fun d hd => (hds d hd).1
    rw [hsign, hfraction, List.drop_append_of_le_length (by omega), hexponent, List.length_drop]
    omega

/-! ## Strings -/

/-- A character that is neither a quote nor a backslash is passed over. -/
theorem stringTailLength?_cons {c : Char} (hquote : c ≠ '"') (hbackslash : c ≠ '\\')
    (cs : List Char) : stringTailLength? (c :: cs) = (stringTailLength? cs).map (· + 1) := by
  rw [stringTailLength?]
  · exact hquote
  · exact fun _ _ hc => absurd hc hbackslash

/-- A backslash at the end of a text closes no string. -/
theorem ne_backslash_of_stringTailLength? {c : Char} {cs : List Char} {m : Nat}
    (hm : stringTailLength? cs = some m) (h : ∀ d ds, c = '\\' → cs = d :: ds → False) :
    c ≠ '\\' := by
  intro hc
  cases cs with
  | nil => cases hm
  | cons d ds => exact h d ds hc rfl

/-- A string is read again from any piece that holds all of it. -/
theorem stringTailLength?_take {cs : List Char} {n m : Nat} (h : stringTailLength? cs = some n)
    (hm : n ≤ m) : stringTailLength? (cs.take m) = some n := by
  fun_induction stringTailLength? cs generalizing n m with
  | case1 => cases h
  | case2 cs =>
    cases h
    obtain ⟨l, rfl⟩ : ∃ l, m = l + 1 := ⟨m - 1, by omega⟩
    rfl
  | case3 cs => cases h
  | case4 c cs hc ih =>
    obtain ⟨k, hk, rfl⟩ := Option.map_eq_some_iff.1 h
    obtain ⟨l, rfl⟩ : ∃ l, m = l + 2 := ⟨m - 2, by omega⟩
    rw [List.take_succ_cons, List.take_succ_cons, stringTailLength?, if_neg hc, ih hk (by omega)]
    rfl
  | case5 c cs hquote hbackslash ih =>
    obtain ⟨k, hk, rfl⟩ := Option.map_eq_some_iff.1 h
    obtain ⟨l, rfl⟩ : ∃ l, m = l + 1 := ⟨m - 1, by omega⟩
    have hc := ne_backslash_of_stringTailLength? hk hbackslash
    rw [List.take_succ_cons, stringTailLength?_cons hquote hc, ih hk (by omega)]
    rfl

theorem stringTailLength?_le {cs : List Char} {n : Nat} (h : stringTailLength? cs = some n) :
    n ≤ cs.length := by
  fun_induction stringTailLength? cs generalizing n with
  | case1 => cases h
  | case2 cs =>
    cases h
    exact Nat.le_add_left 1 cs.length
  | case3 cs => cases h
  | case4 c cs hc ih =>
    obtain ⟨m, hm, rfl⟩ := Option.map_eq_some_iff.1 h
    exact Nat.add_le_add_right (ih hm) 2
  | case5 c cs _ _ ih =>
    obtain ⟨m, hm, rfl⟩ := Option.map_eq_some_iff.1 h
    exact Nat.add_le_add_right (ih hm) 1

/-- A string ends at its closing quote, whatever follows. -/
theorem stringTailLength?_append {cs : List Char} {n : Nat} (h : stringTailLength? cs = some n)
    (ds : List Char) : stringTailLength? (cs ++ ds) = some n := by
  fun_induction stringTailLength? cs generalizing n with
  | case1 => cases h
  | case2 cs =>
    cases h
    rfl
  | case3 cs => cases h
  | case4 c cs hc ih =>
    obtain ⟨m, hm, rfl⟩ := Option.map_eq_some_iff.1 h
    rw [List.cons_append, List.cons_append, stringTailLength?, if_neg hc, ih hm]
    rfl
  | case5 c cs hquote hbackslash ih =>
    obtain ⟨m, hm, rfl⟩ := Option.map_eq_some_iff.1 h
    have hc := ne_backslash_of_stringTailLength? hm hbackslash
    rw [List.cons_append, stringTailLength?_cons hquote hc, ih hm]
    rfl

/-! ## Words -/

/-- The word at the front of a text is its run of letters and digits. -/
theorem take_wordLength (cs : List Char) :
    cs.take (wordLength cs) = cs.takeWhile Char.isAlphanum :=
  (List.prefix_iff_eq_take.1 (List.takeWhile_prefix _)).symm

/-! ## One token, by its first character -/

theorem ofChar?_eq_none {c : Char} (h : ∀ p : Punct, p.char ≠ c) : Punct.ofChar? c = none :=
  Option.eq_none_iff_forall_ne_some.2 fun p hp => h p ((Punct.ofChar?_eq_some_iff c p).1 hp)

/-- No mark is a letter or a digit. -/
theorem char_ne_of_isAlphanum (p : Punct) {c : Char} (h : c.isAlphanum = true) : p.char ≠ c := by
  rintro rfl
  cases p <;> exact absurd h (by decide)

theorem ne_of_isAlphanum {c : Char} {ds : List Char} (h : c.isAlphanum = true)
    (hds : ds.any Char.isAlphanum = false) : ∀ d ∈ ds, c ≠ d := by
  rintro d hd rfl
  exact absurd h (List.any_eq_false.1 hds c hd)

/-- A mark is a token of its own, whatever follows. -/
theorem scan_punct (p : Punct) (cs : List Char) : scan (p.char :: cs) = some (.punct p, 1) := by
  rw [scan, scanFrom, (Punct.ofChar?_eq_some_iff p.char p).2 rfl]

/-- After `>` only an equals sign counts. -/
theorem scan_greater (cs : List Char) : scan ('>' :: cs) =
    if runLength '=' 1 cs = 1 then some (.comparator .greaterEqual, 2)
    else some (.comparator .greater, 1) := by
  rw [scan, scanFrom, (by decide : Punct.ofChar? '>' = none)]
  rfl

/-- After `<` only an equals sign counts. -/
theorem scan_less (cs : List Char) : scan ('<' :: cs) =
    if runLength '=' 1 cs = 1 then some (.comparator .lessEqual, 2)
    else some (.comparator .less, 1) := by
  rw [scan, scanFrom, (by decide : Punct.ofChar? '<' = none)]
  rfl

/-- Up to three equals signs are one token. -/
theorem scan_equal (cs : List Char) :
    scan ('=' :: cs) = some (.comparator .equal, 1 + runLength '=' 2 cs) := by
  rw [scan, scanFrom, (by decide : Punct.ofChar? '=' = none)]
  rfl

/-- An exclamation mark needs one equals sign and takes two. -/
theorem scan_notEqual (cs : List Char) : scan ('!' :: cs) =
    if runLength '=' 2 cs = 0 then none
    else some (.comparator .notEqual, 1 + runLength '=' 2 cs) := by
  rw [scan, scanFrom, (by decide : Punct.ofChar? '!' = none)]
  rfl

/-- A comparator is one of these characters with a run of `=` after it.  How long the run is decides
which comparator it is, if any. -/
theorem scan_comparator {c : Char} (h : c = '>' ∨ c = '<' ∨ c = '=' ∨ c = '!') :
    ∃ (most : Nat) (classify : Nat → Option (Token.Kind × Nat)),
      (∀ cs, scan (c :: cs) = classify (runLength '=' most cs)) ∧
      ∀ k ≤ most, ∀ kind n, classify k = some (kind, n) →
        n = k + 1 ∧ ∃ op, kind = .comparator op := by
  rcases h with rfl | rfl | rfl | rfl
  · refine ⟨1, fun k => if k = 1 then some (.comparator .greaterEqual, 2)
      else some (.comparator .greater, 1), scan_greater, fun k hk kind n hn => ?_⟩
    dsimp only at hn
    split at hn <;> cases hn <;> exact ⟨by omega, _, rfl⟩
  · refine ⟨1, fun k => if k = 1 then some (.comparator .lessEqual, 2)
      else some (.comparator .less, 1), scan_less, fun k hk kind n hn => ?_⟩
    dsimp only at hn
    split at hn <;> cases hn <;> exact ⟨by omega, _, rfl⟩
  · refine ⟨2, fun k => some (.comparator .equal, 1 + k), scan_equal, fun k hk kind n hn => ?_⟩
    cases hn
    exact ⟨Nat.add_comm 1 k, _, rfl⟩
  · refine ⟨2, fun k => if k = 0 then none else some (.comparator .notEqual, 1 + k), scan_notEqual,
      fun k hk kind n hn => ?_⟩
    dsimp only at hn
    split at hn <;> cases hn
    exact ⟨Nat.add_comm 1 k, _, rfl⟩

/-- A quote starts a string, and nothing but a string. -/
theorem scan_string (cs : List Char) : scan ('"' :: cs) =
    (stringTailLength? cs).map fun n => (.literal .string, 1 + n) := by
  rw [scan, scanFrom, (by decide : Punct.ofChar? '"' = none)]
  rfl

/-- A minus or a digit starts a number, and nothing but a number. -/
theorem scan_number {c : Char} (h : c = '-' ∨ c.isDigit = true) (cs : List Char) :
    scan (c :: cs) = (numberLength? (c :: cs)).map fun n => (.literal .number, n) := by
  have hpunct : Punct.ofChar? c = none := by
    rcases h with rfl | hdigit
    · decide
    · exact ofChar?_eq_none fun p => char_ne_of_isAlphanum p (isAlphanum_iff.2 (Or.inr hdigit))
  have hne : ∀ d ∈ ['>', '<', '=', '!'], c ≠ d := by
    rcases h with rfl | hdigit
    · simp
    · exact ne_of_isAlphanum (isAlphanum_iff.2 (Or.inr hdigit)) (by decide)
  rw [scan, scanFrom, hpunct]
  simp only [if_neg (hne '>' (by simp)), if_neg (hne '<' (by simp)), if_neg (hne '=' (by simp)),
    if_neg (hne '!' (by simp)), if_pos h]

theorem isDigit_eq_false_of_isAlpha {c : Char} (h : c.isAlpha = true) : c.isDigit = false := by
  rw [isAlpha_iff] at h
  rw [Bool.eq_false_iff, Ne, isDigit_iff]
  omega

/-- A letter starts a word, which takes in all letters and digits there are. -/
theorem scan_word {c : Char} (h : c.isAlpha = true) (cs : List Char) :
    scan (c :: cs) = some (wordKind ((c :: cs).takeWhile Char.isAlphanum),
      ((c :: cs).takeWhile Char.isAlphanum).length) := by
  have halnum : c.isAlphanum = true := isAlphanum_iff.2 (Or.inl h)
  have hne : ∀ d ∈ ['>', '<', '=', '!', '-', '"'], c ≠ d := ne_of_isAlphanum halnum (by decide)
  have hnumber : ¬ (c = '-' ∨ c.isDigit = true) := by
    simp [hne '-' (by simp), isDigit_eq_false_of_isAlpha h]
  rw [scan, scanFrom, ofChar?_eq_none fun p => char_ne_of_isAlphanum p halnum]
  simp only [if_neg (hne '>' (by simp)), if_neg (hne '<' (by simp)), if_neg (hne '=' (by simp)),
    if_neg (hne '!' (by simp)), if_neg hnumber, if_neg (hne '"' (by simp)), if_pos h,
    take_wordLength]
  rfl

/-- **The first character tells which class of tokens a text may start with.** -/
theorem first_of_scan {c : Char} {cs : List Char} {kind : Token.Kind} {n : Nat}
    (h : scan (c :: cs) = some (kind, n)) :
    (∃ p : Punct, c = p.char) ∨ (c = '>' ∨ c = '<' ∨ c = '=' ∨ c = '!') ∨
      (c = '-' ∨ c.isDigit = true) ∨ c = '"' ∨ c.isAlpha = true := by
  simp only [scan, scanFrom] at h
  split at h
  · next p hp => exact Or.inl ⟨p, ((Punct.ofChar?_eq_some_iff c p).1 hp).symm⟩
  · repeat' split at h
    all_goals simp_all

/-- **The kind of a token tells how its text starts.** -/
theorem kind_of_scan {c : Char} {cs : List Char} {kind : Token.Kind} {n : Nat}
    (h : scan (c :: cs) = some (kind, n)) :
    (∃ p, kind = .punct p) ∨ (∃ op, kind = .comparator op ∧ op.symbol.toList.head? = some c) ∨
      (kind = .literal .number ∧ numberLength? (c :: cs) = some n) ∨ kind = .literal .string ∨
      (c.isAlpha = true ∧ ∃ word, kind = wordKind word) := by
  rcases first_of_scan h with ⟨p, rfl⟩ | (rfl | rfl | rfl | rfl) | hnumber | rfl | halpha
  · rw [scan_punct] at h
    cases h
    exact Or.inl ⟨p, rfl⟩
  · rw [scan_greater] at h
    split at h <;> cases h <;> exact Or.inr (Or.inl ⟨_, rfl, rfl⟩)
  · rw [scan_less] at h
    split at h <;> cases h <;> exact Or.inr (Or.inl ⟨_, rfl, rfl⟩)
  · rw [scan_equal] at h
    cases h
    exact Or.inr (Or.inl ⟨_, rfl, rfl⟩)
  · rw [scan_notEqual] at h
    split at h <;> cases h
    exact Or.inr (Or.inl ⟨_, rfl, rfl⟩)
  · rw [scan_number hnumber] at h
    obtain ⟨k, hk, heq⟩ := Option.map_eq_some_iff.1 h
    cases heq
    exact Or.inr (Or.inr (Or.inl ⟨rfl, hk⟩))
  · rw [scan_string] at h
    obtain ⟨k, -, heq⟩ := Option.map_eq_some_iff.1 h
    cases heq
    exact Or.inr (Or.inr (Or.inr (Or.inl rfl)))
  · rw [scan_word halpha] at h
    exact Or.inr (Or.inr (Or.inr (Or.inr ⟨halpha, _, (Prod.mk.inj (Option.some.inj h)).1.symm⟩)))

/-! ## Tokens out of their texts, and in others -/

/-- **No token goes beyond the text.** -/
theorem scan_le {cs : List Char} {kind : Token.Kind} {n : Nat} (h : scan cs = some (kind, n)) :
    n ≤ cs.length := by
  cases cs with
  | nil => cases h
  | cons c cs =>
    rw [List.length_cons]
    rcases first_of_scan h with ⟨p, rfl⟩ | hcomparator | hnumber | rfl | halpha
    · rw [scan_punct] at h
      cases h
      omega
    · obtain ⟨most, classify, hscan, hclassify⟩ := scan_comparator hcomparator
      rw [hscan] at h
      obtain ⟨hn, -⟩ := hclassify _ (runLength_le '=' most cs) _ _ h
      have := runLength_le_length '=' most cs
      omega
    · rw [scan_number hnumber] at h
      obtain ⟨k, hk, heq⟩ := Option.map_eq_some_iff.1 h
      cases heq
      exact numberLength?_le hk
    · rw [scan_string] at h
      obtain ⟨k, hk, heq⟩ := Option.map_eq_some_iff.1 h
      cases heq
      have := stringTailLength?_le hk
      omega
    · rw [scan_word halpha] at h
      cases h
      exact (List.takeWhile_sublist _).length_le

/-- **A token stays what it is when the text is cut off behind it,** at once or later. -/
theorem scan_take_of_le {cs : List Char} {kind : Token.Kind} {n m : Nat}
    (h : scan cs = some (kind, n)) (hm : n ≤ m) : scan (cs.take m) = some (kind, n) := by
  cases cs with
  | nil => cases h
  | cons c cs =>
    obtain ⟨l, rfl⟩ : ∃ l, m = l + 1 := ⟨m - 1, by have := scan_pos h; omega⟩
    rw [List.take_succ_cons]
    rcases first_of_scan h with ⟨p, rfl⟩ | hcomparator | hnumber | rfl | halpha
    · rw [scan_punct] at h ⊢
      exact h
    · obtain ⟨most, classify, hscan, hclassify⟩ := scan_comparator hcomparator
      rw [hscan] at h ⊢
      obtain ⟨hn, -⟩ := hclassify _ (runLength_le '=' most cs) _ _ h
      rwa [runLength_take (by omega)]
    · rw [scan_number hnumber] at h ⊢
      obtain ⟨k, hk, heq⟩ := Option.map_eq_some_iff.1 h
      obtain ⟨rfl, rfl⟩ := Prod.mk.inj heq
      have hcut := numberLength?_take hk hm
      rw [List.take_succ_cons] at hcut
      rw [hcut]
      rfl
    · rw [scan_string] at h ⊢
      obtain ⟨k, hk, heq⟩ := Option.map_eq_some_iff.1 h
      obtain ⟨rfl, hn⟩ := Prod.mk.inj heq
      rw [stringTailLength?_take hk (by omega)]
      rwa [hk] at h
    · rw [scan_word halpha] at h ⊢
      obtain ⟨-, hn⟩ := Prod.mk.inj (Option.some.inj h)
      have hcut := takeWhile_take_of_le (Nat.le_trans (Nat.le_of_eq hn) hm)
      rw [List.take_succ_cons] at hcut
      rwa [hcut]

/-- **A lexeme on its own is the same token.** -/
theorem scan_take {cs : List Char} {kind : Token.Kind} {n : Nat} (h : scan cs = some (kind, n)) :
    scan (cs.take n) = some (kind, n) :=
  scan_take_of_le h (Nat.le_refl n)

end Lexer

/-- Whether a lexeme of a kind ends before a character, whatever the lexeme. -/
def Token.Kind.endsBefore : Token.Kind → Char → Bool
  | .punct _, _ | .literal .string, _ => true
  | .comparator _, c => c ≠ '='
  | .literal .number, c => !c.isAlphanum && c ≠ '.'
  | _, c => !c.isAlphanum

namespace Lexer

/-- Words, keywords or not, end before anything but a letter or a digit. -/
theorem endsBefore_wordKind {word : List Char} {c : Char}
    (h : (wordKind word).endsBefore c = true) : c.isAlphanum = false := by
  unfold wordKind at h
  repeat' split at h
  all_goals simpa [Token.Kind.endsBefore] using h

/-- **A lexeme is found at the front of every text in which it ends.** -/
theorem scan_append {xs ds : List Char} {kind : Token.Kind} (h : scan xs = some (kind, xs.length))
    (hds : ∀ d ∈ ds.head?, kind.endsBefore d = true) :
    scan (xs ++ ds) = some (kind, xs.length) := by
  cases xs with
  | nil => cases h
  | cons c cs =>
    rw [List.cons_append]
    rcases first_of_scan h with ⟨p, rfl⟩ | hcomparator | hnumber | rfl | halpha
    · rw [scan_punct] at h ⊢
      exact h
    · obtain ⟨most, classify, hscan, hclassify⟩ := scan_comparator hcomparator
      rw [hscan] at h ⊢
      obtain ⟨-, op, rfl⟩ := hclassify _ (runLength_le '=' most cs) _ _ h
      have hne : ∀ d ∈ ds.head?, d ≠ '=' := by simpa [Token.Kind.endsBefore] using hds
      rwa [runLength_append cs hne]
    · rw [scan_number hnumber] at h ⊢
      obtain ⟨k, hk, heq⟩ := Option.map_eq_some_iff.1 h
      obtain ⟨rfl, rfl⟩ := Prod.mk.inj heq
      have happend := numberLength?_append hk fun d hd => by
        simpa [Token.Kind.endsBefore] using hds d hd
      rw [List.cons_append] at happend
      rw [happend]
      rfl
    · rw [scan_string] at h ⊢
      obtain ⟨k, hk, -⟩ := Option.map_eq_some_iff.1 h
      rw [stringTailLength?_append hk]
      rwa [hk] at h
    · rw [scan_word halpha] at h ⊢
      obtain ⟨hkind, -⟩ := Prod.mk.inj (Option.some.inj h)
      have happend := takeWhile_append_of_head (p := Char.isAlphanum) (c :: cs) fun d hd =>
        endsBefore_wordKind (hkind ▸ hds d hd)
      rw [List.cons_append] at happend
      rwa [happend]

end Lexer

/-! ## Lexemes -/

/-- The spelling is that of one token, of this kind. -/
def Word.IsLexeme (w : Word) : Prop :=
  Lexer.scan w.2.toList = some (w.1, w.2.toList.length)

/-- Only a letter starts a name. -/
theorem Lexer.isAlpha_of_scan_segment {c : Char} {cs : List Char} {n : Nat}
    (h : scan (c :: cs) = some (.segment, n)) : c.isAlpha = true := by
  obtain ⟨p, hkind⟩ | ⟨op, hkind, -⟩ | ⟨hkind, -⟩ | hkind | ⟨halpha, -⟩ := kind_of_scan h
  · cases hkind
  · cases hkind
  · cases hkind
  · cases hkind
  · exact halpha

/-- **A name is made of letters and digits.** -/
theorem Word.isAlphanum_of_mem_name {name : String} (h : Word.IsLexeme (.segment, name)) :
    ∀ c ∈ name.toList, c.isAlphanum = true := by
  rw [Word.IsLexeme] at h
  cases hname : name.toList with
  | nil =>
    rw [hname] at h
    cases h
  | cons c cs =>
    rw [hname] at h
    rw [Lexer.scan_word (Lexer.isAlpha_of_scan_segment h)] at h
    have hlength := (Prod.mk.inj (Option.some.inj h)).2
    have hwhole : (c :: cs).takeWhile Char.isAlphanum = c :: cs :=
      (List.takeWhile_prefix _).eq_of_length hlength
    intro d hd
    rw [← hwhole] at hd
    exact List.all_eq_true.1 List.all_takeWhile d hd

namespace Lexes

/-- **The words of a text are lexemes.** -/
theorem isLexeme {cs rest : List Char} {ws : List Word} (h : Lexes cs ws rest) :
    ∀ w ∈ ws, Word.IsLexeme w := by
  induction h with
  | done => simp
  | blank _ _ ih => exact ih
  | @word cs _ kind n _ hscan _ ih =>
    refine List.forall_mem_cons.2 ⟨?_, ih⟩
    have hcut := Lexer.scan_take hscan
    have hn : (cs.take n).length = n := List.length_take_of_le (Lexer.scan_le hscan)
    rw [Word.IsLexeme, String.toList_ofList, hn]
    exact hcut

/-- **A lexeme that ends where it should is a word of the text.** -/
theorem lexeme {w : Word} (hw : w.IsLexeme) {cs : List Char}
    (hcs : ∀ c ∈ cs.head?, w.1.endsBefore c = true) : Lexes (w.2.toList ++ cs) [w] cs := by
  have hscan := Lexer.scan_append hw hcs
  have hword := Lexes.word hscan .done
  rwa [List.drop_left, List.take_left, String.ofList_toList] at hword

end Lexes

end FilterQuery
