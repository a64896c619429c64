import FilterQuery.Token.Lexer

/-!
# Proofs/Token/Text — what the tokens of a text are

`Lexes cs ws rest` says that the words `ws` come off the front of `cs` and leave `rest`: each is the
longest token that its place allows, with all that follows it in sight.  Such judgements compose
(`Lexes.append`), and the tokens of a text are its words up to the end (`tokens_eq_ok`,
`Lexes.tokens`).
-/

namespace FilterQuery

/-- What a token is and how it is spelled, wherever it stands. -/
abbrev Word :=
  Token.Kind × String

/-- The word that a token is. -/
def Token.word (t : Token) : Word :=
  (t.kind, t.lexeme)

/-- The words at the front of a text, and what comes after them. -/
inductive Lexes : List Char → List Word → List Char → Prop
  | done {cs : List Char} : Lexes cs [] cs
  | blank {c : Char} {cs rest : List Char} {ws : List Word} : Text.isBlank c = true →
      Lexes cs ws rest → Lexes (c :: cs) ws rest
  | word {cs rest : List Char} {kind : Token.Kind} {n : Nat} {ws : List Word} :
      Lexer.scan cs = some (kind, n) → Lexes (cs.drop n) ws rest →
      Lexes cs ((kind, String.ofList (cs.take n)) :: ws) rest

namespace Lexes

/-- Words that come off one after the other come off together. -/
theorem append {cs ds rest : List Char} {ws vs : List Word} (h : Lexes cs ws ds)
    (h' : Lexes ds vs rest) : Lexes cs (ws ++ vs) rest := by
  induction h with
  | done => exact h'
  | blank hc _ ih => exact .blank hc (ih h')
  | word hscan _ ih => exact .word hscan (ih h')

/-- No word is the end of input. -/
theorem ne_endOfInput {cs rest : List Char} {ws : List Word} (h : Lexes cs ws rest) :
    ∀ w ∈ ws, w.1 ≠ .endOfInput := by
  induction h with
  | done => simp
  | blank _ _ ih => exact ih
  | word hscan _ ih => exact List.forall_mem_cons.2 ⟨Lexer.scan_ne_endOfInput hscan, ih⟩

/-- White space in front may be skipped all at once. -/
theorem of_dropWhile {cs rest : List Char} {ws : List Word}
    (h : Lexes (cs.dropWhile Text.isBlank) ws rest) : Lexes cs ws rest := by
  induction cs with
  | nil => exact h
  | cons c cs ih =>
    by_cases hc : Text.isBlank c = true
    · rw [List.dropWhile_cons_of_pos hc] at h
      exact .blank hc (ih h)
    · rwa [List.dropWhile_cons_of_neg hc] at h

end Lexes

/-! ## White space starts no token -/

/-- White space is not among the visible ASCII characters. -/
theorem isBlank_eq_false {c : Char} (h : 0x21 ≤ c.toNat) (h' : c.toNat ≤ 0x7e) :
    Text.isBlank c = false := by
  simp only [Text.isBlank, Text.blankRanges, List.any_cons, List.any_nil, Bool.or_false,
    Bool.or_eq_false_iff, Bool.and_eq_false_iff, decide_eq_false_iff_not]
  omega

theorem isDigit_iff {c : Char} : c.isDigit = true ↔ 48 ≤ c.toNat ∧ c.toNat ≤ 57 := by
  change (decide (c.val ≥ 48) && decide (c.val ≤ 57)) = true ↔ _
  rw [Bool.and_eq_true, decide_eq_true_eq, decide_eq_true_eq]
  exact Iff.rfl

theorem isAlpha_iff {c : Char} : c.isAlpha = true ↔
    (65 ≤ c.toNat ∧ c.toNat ≤ 90) ∨ (97 ≤ c.toNat ∧ c.toNat ≤ 122) := by
  have hupper : c.isUpper = true ↔ 65 ≤ c.toNat ∧ c.toNat ≤ 90 := by
    change decide (c.val ≥ 65 ∧ c.val ≤ 90) = true ↔ _
    rw [decide_eq_true_eq]
    exact Iff.rfl
  have hlower : c.isLower = true ↔ 97 ≤ c.toNat ∧ c.toNat ≤ 122 := by
    change (decide (c.val ≥ 97) && decide (c.val ≤ 122)) = true ↔ _
    rw [Bool.and_eq_true, decide_eq_true_eq, decide_eq_true_eq]
    exact Iff.rfl
  rw [← hupper, ← hlower, ← Bool.or_eq_true]
  exact Iff.rfl

theorem isAlphanum_iff {c : Char} : c.isAlphanum = true ↔ c.isAlpha = true ∨ c.isDigit = true := by
  change (c.isAlpha || c.isDigit) = true ↔ _
  rw [Bool.or_eq_true]

/-- No letter or digit is white space. -/
theorem isBlank_eq_false_of_isAlphanum {c : Char} (h : c.isAlphanum = true) :
    Text.isBlank c = false := by
  rw [isAlphanum_iff, isAlpha_iff, isDigit_iff] at h
  exact isBlank_eq_false (by omega) (by omega)

/-- **White space starts no token,** so it is only ever skipped. -/
theorem scan_eq_none_of_isBlank {c : Char} (h : Text.isBlank c = true) (cs : List Char) :
    Lexer.scan (c :: cs) = none := by
  have hne : ∀ d, Text.isBlank d = false → c ≠ d := by
    rintro d hd rfl
    exact Bool.false_ne_true (hd.symm.trans h)
  have hpunct : Punct.ofChar? c = none := by
    refine Option.eq_none_iff_forall_ne_some.2 fun p hp => ?_
    exact hne p.char (by cases p <;> decide) ((Punct.ofChar?_eq_some_iff c p).1 hp).symm
  have hdigit : ¬ c.isDigit = true := fun hc =>
    hne c (isBlank_eq_false_of_isAlphanum (isAlphanum_iff.2 (Or.inr hc))) rfl
  have halpha : ¬ c.isAlpha = true := fun hc =>
    hne c (isBlank_eq_false_of_isAlphanum (isAlphanum_iff.2 (Or.inl hc))) rfl
  rw [Lexer.scan, Lexer.scanFrom, hpunct]
  simp [hne '>' (by decide), hne '<' (by decide), hne '=' (by decide), hne '!' (by decide),
    hne '-' (by decide), hne '"' (by decide), hdigit, halpha]

namespace Cursor

/-! ## The tokens of a text -/

/-- After the last token comes the end of input. -/
theorem next_of_nil {c : Cursor} (h : c.skipBlanks.rest = []) :
    c.next = (.ok ⟨.endOfInput, "", c.skipBlanks.offset⟩, c.skipBlanks) := by
  simp only [next]
  split
  · rfl
  · next found rest heq => rw [h] at heq; cases heq

/-- After white space comes the token found there. -/
theorem next_of_scan {c : Cursor} {kind : Token.Kind} {n : Nat}
    (h : Lexer.scan c.skipBlanks.rest = some (kind, n)) :
    c.next = (.ok ⟨kind, String.ofList (c.skipBlanks.rest.take n), c.skipBlanks.offset⟩,
      c.skipBlanks.drop n) := by
  simp only [next]
  split
  · next heq => rw [heq] at h; cases h
  · rw [h]

/-- Where no token is found, the place after the white space is blamed and kept. -/
theorem next_of_scan_eq_none {c : Cursor} {found : Char} {post : List Char}
    (hfound : c.skipBlanks.rest = found :: post) (h : Lexer.scan c.skipBlanks.rest = none) :
    c.next = (.error ⟨c.skipBlanks.offset, found⟩, c.skipBlanks) := by
  simp only [next, hfound]
  rw [← hfound, h]

/-- A token is the end of input at the end of the text, or else what `scan` finds. -/
theorem next_eq_ok {c d : Cursor} {t : Token} (h : c.next = (.ok t, d)) :
    (t.kind = .endOfInput ∧ c.skipBlanks.rest = []) ∨
      ∃ kind n, Lexer.scan c.skipBlanks.rest = some (kind, n) ∧ d = c.skipBlanks.drop n ∧
        t.word = (kind, String.ofList (c.skipBlanks.rest.take n)) := by
  simp only [next] at h
  split at h
  · next heq =>
    cases h
    exact Or.inl ⟨rfl, heq⟩
  · split at h
    · next kind n hscan =>
      cases h
      exact Or.inr ⟨kind, n, hscan, rfl, rfl⟩
    · cases h

/-- The end of input is the last token. -/
theorem tokens_of_endOfInput {c d : Cursor} {t : Token} (h : c.next = (.ok t, d))
    (ht : t.kind = .endOfInput) : c.tokens = .ok [t] := by
  rw [tokens]
  split
  · next heq => rw [h] at heq; cases heq
  · next heq =>
    rw [h] at heq
    cases heq
    rw [dif_pos ht]

/-- Any other token has the tokens of what follows behind it. -/
theorem tokens_of_next {c d : Cursor} {t : Token} (h : c.next = (.ok t, d))
    (ht : t.kind ≠ .endOfInput) : c.tokens = d.tokens.map (t :: ·) := by
  rw [tokens]
  split
  · next heq => rw [h] at heq; cases heq
  · next heq =>
    rw [h] at heq
    cases heq
    rw [dif_neg ht]

/-- **The tokens of a text are its words,** and then the end of input. -/
theorem tokens_eq_ok (c : Cursor) {ts : List Token} (h : c.tokens = .ok ts) :
    ∃ us eof, ts = us ++ [eof] ∧ eof.kind = .endOfInput ∧ Lexes c.rest (us.map Token.word) [] := by
  fun_induction tokens c generalizing ts with
  | case1 c e _ hnext => cases h
  | case2 c t d hnext ht =>
    cases h
    obtain ⟨-, hrest⟩ | ⟨kind, n, hscan, -, hword⟩ := next_eq_ok hnext
    · refine ⟨[], t, rfl, ht, .of_dropWhile ?_⟩
      change Lexes c.skipBlanks.rest [] []
      rw [hrest]
      exact .done
    · exact absurd ((congrArg Prod.fst hword).symm.trans ht) (Lexer.scan_ne_endOfInput hscan)
  | case3 c t d hnext ht _ ih =>
    obtain ⟨hkind, -⟩ | ⟨kind, n, hscan, rfl, hword⟩ := next_eq_ok hnext
    · exact absurd hkind ht
    · rcases hmore : (c.skipBlanks.drop n).tokens with e | more
      · rw [hmore] at h
        cases h
      · rw [hmore] at h
        cases h
        obtain ⟨us, eof, rfl, heof, hlexes⟩ := ih hmore
        refine ⟨t :: us, eof, rfl, heof, .of_dropWhile ?_⟩
        rw [List.map_cons, hword]
        exact .word hscan hlexes

/-- The first failure is the failure of the whole text. -/
theorem tokens_of_error {c d : Cursor} {e : LexError} (h : c.next = (.error e, d)) :
    c.tokens = .error e := by
  rw [tokens]
  split
  · next heq =>
    rw [h] at heq
    cases heq
    rfl
  · next heq => rw [h] at heq; cases heq

/-- The tokens from a place on depend on the next token and the place behind it only. -/
theorem tokens_congr {c d : Cursor} (h : c.next = d.next) : c.tokens = d.tokens := by
  rcases hd : d.next with ⟨e | t, d'⟩
  · rw [tokens_of_error hd, tokens_of_error (h.trans hd)]
  · by_cases ht : t.kind = .endOfInput
    · rw [tokens_of_endOfInput hd ht, tokens_of_endOfInput (h.trans hd) ht]
    · rw [tokens_of_next hd ht, tokens_of_next (h.trans hd) ht]

/-- White space in front may be skipped one character at a time. -/
theorem skipBlanks_cons {c : Char} (h : Text.isBlank c = true) (offset : Nat) (cs : List Char) :
    (Cursor.mk offset (c :: cs)).skipBlanks = (Cursor.mk (offset + c.utf8Size) cs).skipBlanks := by
  simp only [skipBlanks, List.takeWhile_cons_of_pos h, List.dropWhile_cons_of_pos h,
    Text.byteLength_cons, Nat.add_assoc]

/-- There is no white space to skip in front of a token. -/
theorem skipBlanks_of_scan (offset : Nat) {n : Nat} {cs : List Char} {kind : Token.Kind}
    (h : Lexer.scan cs = some (kind, n)) :
    (Cursor.mk offset cs).skipBlanks = Cursor.mk offset cs := by
  cases cs with
  | nil => rfl
  | cons c cs =>
    have hc : ¬ Text.isBlank c = true := fun hc => by
      rw [scan_eq_none_of_isBlank hc] at h
      cases h
    simp only [skipBlanks, List.takeWhile_cons_of_neg hc, List.dropWhile_cons_of_neg hc,
      Text.byteLength_nil, Nat.add_zero]

/-- **A text whose words are `ws` up to its end has just these tokens.** -/
theorem tokens_of_lexes {cs rest : List Char} {ws : List Word} (h : Lexes cs ws rest)
    (hrest : rest = []) (offset : Nat) :
    ∃ us eof, (Cursor.mk offset cs).tokens = .ok (us ++ [eof]) ∧ eof.kind = .endOfInput ∧
      us.map Token.word = ws := by
  induction h generalizing offset with
  | done =>
    subst hrest
    exact ⟨[], _, tokens_of_endOfInput (next_of_nil rfl) rfl, rfl, rfl⟩
  | @blank c cs _ _ hc _ ih =>
    obtain ⟨us, eof, htokens, hrest⟩ := ih hrest (offset + c.utf8Size)
    refine ⟨us, eof, ?_, hrest⟩
    rw [← htokens]
    refine tokens_congr ?_
    simp only [next, skipBlanks_cons hc]
  | @word cs _ kind n _ hscan _ ih =>
    have hblanks := skipBlanks_of_scan offset hscan
    have hnext := next_of_scan (c := ⟨offset, cs⟩) (by rwa [hblanks])
    rw [hblanks] at hnext
    obtain ⟨us, eof, htokens, heof, hwords⟩ := ih hrest (Cursor.mk offset cs |>.drop n).offset
    refine ⟨⟨kind, String.ofList (cs.take n), offset⟩ :: us, eof, ?_, heof,
      List.cons_eq_cons.2 ⟨rfl, hwords⟩⟩
    rw [tokens_of_next hnext (Lexer.scan_ne_endOfInput hscan)]
    change Except.map _ (Cursor.mk (Cursor.mk offset cs |>.drop n).offset (cs.drop n)).tokens = _
    rw [htokens]
    rfl

end Cursor

/-- **The tokens of a text are its words,** and then the end of input, which is no word. -/
theorem Token.ofText_eq_ok {text : String} {ts : List Token} (h : ofText text = .ok ts) :
    ∃ us eof, ts = us ++ [eof] ∧ eof.kind = .endOfInput ∧ (∀ t ∈ us, t.kind ≠ .endOfInput) ∧
      Lexes text.toList (us.map Token.word) [] := by
  obtain ⟨us, eof, hts, heof, hlexes⟩ := Cursor.tokens_eq_ok _ h
  refine ⟨us, eof, hts, heof, fun t ht => ?_, hlexes⟩
  exact hlexes.ne_endOfInput t.word (List.mem_map_of_mem ht)

end FilterQuery
