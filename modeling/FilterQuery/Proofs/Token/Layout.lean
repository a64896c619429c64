import FilterQuery.Proofs.Token.Lexeme
import Mathlib.Data.List.TakeWhile

/-!
# Proofs/Token/Layout — where the tokens of a text stand

    text       ··a.b··=↵⇥"x"
    tokens     a  .  b  =  "x"  end of input
    offsets    2  3  4  7  10   13

Tokens stand side by side in their text (`Laid`): before each of them and after the last there is
white space and nothing else.  So a text that splits into tokens can be put together again from
them.  One that does not is a text that does, up to the character at fault (`Emits.cut`): what comes
behind a token has no part in it (`Emits.replace`).  **Both halves together are
`ofText_loses_nothing`.**
-/

namespace FilterQuery

/-- From byte `offset` on, the text consists of these tokens, of white space before each of them,
and of white space at the end. -/
inductive Laid : Nat → List Char → List Token → Prop where
  | done {offset : Nat} {blanks : List Char} : (∀ c ∈ blanks, Text.isBlank c = true) →
      Laid offset blanks []
  | token {offset : Nat} {blanks rest : List Char} {t : Token} {ts : List Token} :
      (∀ c ∈ blanks, Text.isBlank c = true) → t.lexeme ≠ "" →
      t.offset = offset + Text.byteLength blanks → Laid t.stop rest ts →
      Laid offset (blanks ++ (t.lexeme.toList ++ rest)) (t :: ts)

/-- A token with a lexeme stops after its start. -/
theorem Token.offset_lt_stop {t : Token} (h : t.lexeme ≠ "") : t.offset < t.stop := by
  have hpos : t.lexeme.utf8ByteSize ≠ 0 := fun hzero => h (String.utf8ByteSize_eq_zero_iff.1 hzero)
  rw [stop]
  omega

namespace Laid

variable {offset : Nat} {cs : List Char} {ts : List Token}

/-- Tokens laid out in a text have lexemes. -/
theorem lexeme_ne_empty (h : Laid offset cs ts) : ∀ t ∈ ts, t.lexeme ≠ "" := by
  induction h with
  | done => simp
  | token _ hne _ _ ih => exact List.forall_mem_cons.2 ⟨hne, ih⟩

/-- Tokens laid out from an offset on start there or later. -/
theorem offset_le (h : Laid offset cs ts) : ∀ t ∈ ts, offset ≤ t.offset := by
  induction h with
  | done => simp
  | @token offset blanks rest t ts _ hne hoffset _ ih =>
    refine List.forall_mem_cons.2 ⟨by omega, fun u hu => ?_⟩
    have hstop := Token.offset_lt_stop hne
    have := ih u hu
    omega

/-- **Tokens do not overlap.** -/
theorem pairwise_stop_le (h : Laid offset cs ts) : ts.Pairwise fun t u => t.stop ≤ u.offset := by
  induction h with
  | done => exact .nil
  | token _ _ _ hrest ih => exact .cons hrest.offset_le ih

/-- **A token is the piece of text at its place.** -/
theorem stands (h : Laid offset cs ts) : ∀ t ∈ ts, ∃ pre post,
    cs = pre ++ t.lexeme.toList ++ post ∧ offset + Text.byteLength pre = t.offset := by
  induction h with
  | done => simp
  | @token offset blanks rest t ts _ _ hoffset _ ih =>
    refine List.forall_mem_cons.2 ⟨⟨blanks, rest, by simp, hoffset.symm⟩, fun u hu => ?_⟩
    obtain ⟨pre, post, rfl, hpre⟩ := ih u hu
    refine ⟨blanks ++ t.lexeme.toList ++ pre, post, by simp, ?_⟩
    rw [Text.byteLength_append, Text.byteLength_append, Text.byteLength_toList, ← hpre, Token.stop]
    omega

/-- A character of two texts in a row stands in the first one or in the second one. -/
theorem mem_append_split {xs ys pre post : List Char} {c : Char}
    (h : xs ++ ys = pre ++ c :: post) :
    (∃ tail, xs = pre ++ c :: tail) ∨ ∃ more, pre = xs ++ more ∧ ys = more ++ c :: post := by
  rcases List.append_eq_append_iff.1 h with ⟨more, hpre, hys⟩ | ⟨more, hxs, hrest⟩
  · exact Or.inr ⟨more, hpre, hys⟩
  · cases more with
    | nil => exact Or.inr ⟨[], by simpa using hxs.symm, hrest.symm⟩
    | cons d more =>
      obtain ⟨rfl, -⟩ := List.cons.inj hrest
      exact Or.inl ⟨more, hxs⟩

/-- **What is not in a token is white space.** -/
theorem isBlank_or_covered (h : Laid offset cs ts) {pre post : List Char} {c : Char}
    (hsplit : cs = pre ++ c :: post) : Text.isBlank c = true ∨
      ∃ t ∈ ts, t.offset ≤ offset + Text.byteLength pre ∧
        offset + Text.byteLength pre < t.stop := by
  induction h generalizing pre with
  | done hblank => exact Or.inl (hblank c (hsplit ▸ by simp))
  | @token offset blanks rest t ts hblank _ hoffset _ ih =>
    have hsize := Text.byteLength_toList t.lexeme
    obtain ⟨tail, rfl⟩ | ⟨more, rfl, hmore⟩ := mem_append_split hsplit
    · exact Or.inl (hblank c (by simp))
    obtain ⟨tail, htail⟩ | ⟨last, rfl, hlast⟩ := mem_append_split hmore
    · have hpos := c.utf8Size_pos
      rw [htail, Text.byteLength_append, Text.byteLength_cons] at hsize
      refine Or.inr ⟨t, List.mem_cons_self, ?_, ?_⟩
      · rw [Text.byteLength_append]
        omega
      · rw [Text.byteLength_append, Token.stop]
        omega
    · have hplace : t.stop + Text.byteLength last =
          offset + Text.byteLength (blanks ++ (t.lexeme.toList ++ last)) := by
        rw [Text.byteLength_append, Text.byteLength_append, Token.stop]
        omega
      rw [← hplace]
      refine (ih hlast).imp_right ?_
      rintro ⟨u, hu, hle, hlt⟩
      exact ⟨u, List.mem_cons_of_mem t hu, hle, hlt⟩

end Laid

namespace Cursor

/-! ## Tokens of a text, laid out -/

/-- What is skipped is white space, and all of the rest comes after it. -/
theorem rest_eq_skipBlanks (c : Cursor) : ∃ blanks, (∀ x ∈ blanks, Text.isBlank x = true) ∧
    c.rest = blanks ++ c.skipBlanks.rest ∧
    c.skipBlanks.offset = c.offset + Text.byteLength blanks :=
  ⟨c.rest.takeWhile Text.isBlank, List.all_eq_true.1 List.all_takeWhile,
    (List.takeWhile_append_dropWhile).symm, rfl⟩

/-- A token that is taken stands in the text, with white space before it. -/
theorem next_stands {c d : Cursor} {t : Token} (h : c.next = (.ok t, d))
    (ht : t.kind ≠ .endOfInput) : ∃ blanks, (∀ x ∈ blanks, Text.isBlank x = true) ∧
      t.lexeme ≠ "" ∧ t.offset = c.offset + Text.byteLength blanks ∧ d.offset = t.stop ∧
      c.rest = blanks ++ (t.lexeme.toList ++ d.rest) ∧
      Lexer.scan (t.lexeme.toList ++ d.rest) = some (t.kind, t.lexeme.toList.length) := by
  obtain ⟨blanks, hblank, hrest, hoffset⟩ := c.rest_eq_skipBlanks
  obtain ⟨hkind, -⟩ | ⟨kind, n, hscan, -, -⟩ := next_eq_ok h
  · exact absurd hkind ht
  rw [next_of_scan hscan] at h
  cases h
  have hlength : (c.skipBlanks.rest.take n).length = n :=
    List.length_take_of_le (Lexer.scan_le hscan)
  refine ⟨blanks, hblank, ?_, hoffset, ?_, ?_, ?_⟩
  · intro hempty
    have hnil : c.skipBlanks.rest.take n = [] := by simpa using congrArg String.toList hempty
    have hpos := Lexer.scan_pos hscan
    simp only [hnil, List.length_nil] at hlength
    omega
  · rw [Token.stop, ← Text.byteLength_toList, String.toList_ofList]
    rfl
  · rw [String.toList_ofList, drop, List.take_append_drop]
    exact hrest
  · rw [String.toList_ofList, drop, List.take_append_drop, hlength]
    exact hscan

/-- The end of input stands at the end of the text, and only white space comes before it. -/
theorem next_endOfInput {c d : Cursor} {t : Token} (h : c.next = (.ok t, d))
    (ht : t.kind = .endOfInput) : (∀ x ∈ c.rest, Text.isBlank x = true) ∧
      t = ⟨.endOfInput, "", c.offset + Text.byteLength c.rest⟩ := by
  obtain ⟨blanks, hblank, hrest, hoffset⟩ := c.rest_eq_skipBlanks
  obtain ⟨-, hnil⟩ | ⟨kind, n, hscan, -, hword⟩ := next_eq_ok h
  · rw [next_of_nil hnil] at h
    cases h
    rw [hnil, List.append_nil] at hrest
    rw [hrest, hoffset]
    exact ⟨hblank, rfl⟩
  · exact absurd ((congrArg Prod.fst hword).symm.trans ht) (Lexer.scan_ne_endOfInput hscan)

/-- **The tokens of a text stand side by side in it,** and the end of input stands at its end. -/
theorem laid_of_tokens (c : Cursor) {ts : List Token} (h : c.tokens = .ok ts) :
    ∃ us, ts = us ++ [⟨.endOfInput, "", c.offset + Text.byteLength c.rest⟩] ∧
      (∀ t ∈ us, t.kind ≠ .endOfInput) ∧ Laid c.offset c.rest us := by
  fun_induction tokens c generalizing ts with
  | case1 c e _ hnext => cases h
  | case2 c t d hnext ht =>
    obtain ⟨hblank, rfl⟩ := next_endOfInput hnext ht
    exact ⟨[], (Except.ok.inj h).symm, by simp, .done hblank⟩
  | case3 c t d hnext ht _ ih =>
    rcases hmore : d.tokens with e | more
    · rw [hmore] at h
      cases h
    · rw [hmore] at h
      obtain ⟨us, rfl, hkinds, hlaid⟩ := ih hmore
      obtain ⟨blanks, hblank, hne, hoffset, hstop, hrest, -⟩ := next_stands hnext ht
      refine ⟨t :: us, ?_, List.forall_mem_cons.2 ⟨ht, hkinds⟩, ?_⟩
      · rw [← Except.ok.inj h, hrest, hstop, Token.stop, hoffset]
        simp only [Text.byteLength_append, Text.byteLength_toList, List.cons_append, Nat.add_assoc]
      · rw [hrest]
        exact .token hblank hne hoffset (hstop ▸ hlaid)

/-! ## Tokens before a failure -/

/-- Taking tokens one after the other from the first place leads to the second one. -/
inductive Emits : Cursor → List Token → Cursor → Prop where
  | nil (c : Cursor) : Emits c [] c
  | cons {c d e : Cursor} {t : Token} {ts : List Token} : c.next = (.ok t, d) →
      t.kind ≠ .endOfInput → Emits d ts e → Emits c (t :: ts) e

/-- A place where no token can be taken: white space, which is skipped, then the character at
fault. -/
theorem next_eq_error {c d : Cursor} {e : LexError} (h : c.next = (.error e, d)) :
    d = c.skipBlanks ∧ ∃ blanks post, (∀ x ∈ blanks, Text.isBlank x = true) ∧
      c.rest = blanks ++ e.found :: post ∧ e.offset = c.offset + Text.byteLength blanks := by
  obtain ⟨blanks, hblank, hrest, hoffset⟩ := c.rest_eq_skipBlanks
  rcases hskip : c.skipBlanks.rest with _ | ⟨found, post⟩
  · rw [next_of_nil hskip] at h
    cases h
  · rcases hscan : Lexer.scan c.skipBlanks.rest with _ | ⟨kind, n⟩
    · rw [next_of_scan_eq_none hskip hscan] at h
      cases h
      exact ⟨rfl, blanks, post, hblank, hskip ▸ hrest, hoffset⟩
    · rw [next_of_scan hscan] at h
      cases h

/-- A text that does not split into tokens has some, up to the place where none can be taken. -/
theorem exists_emits_of_error (c : Cursor) {e : LexError} (h : c.tokens = .error e) :
    ∃ ts d, Emits c ts d ∧ d.next = (.error e, d.skipBlanks) := by
  fun_induction tokens c with
  | case1 c e' d hnext =>
    cases h
    obtain ⟨rfl, -⟩ := next_eq_error hnext
    exact ⟨[], c, .nil c, hnext⟩
  | case2 c t d hnext ht => cases h
  | case3 c t d hnext ht _ ih =>
    rcases hmore : d.tokens with e' | more
    · rw [hmore] at h
      obtain ⟨ts, last, hemits, hlast⟩ := ih (hmore.trans (congrArg _ (Except.error.inj h)))
      exact ⟨t :: ts, last, .cons hnext ht hemits, hlast⟩
    · rw [hmore] at h
      cases h

/-- A token that stands in the text, with white space before it, is taken. -/
theorem next_of_stands (offset : Nat) {blanks rest : List Char} {kind : Token.Kind}
    {lexeme : String} (hblank : ∀ x ∈ blanks, Text.isBlank x = true)
    (hscan : Lexer.scan (lexeme.toList ++ rest) = some (kind, lexeme.toList.length)) :
    (Cursor.mk offset (blanks ++ (lexeme.toList ++ rest))).next =
      (.ok ⟨kind, lexeme, offset + Text.byteLength blanks⟩,
        ⟨offset + Text.byteLength blanks + Text.byteLength lexeme.toList, rest⟩) := by
  induction blanks generalizing offset with
  | nil =>
    have hskip := skipBlanks_of_scan offset hscan
    have hnext := next_of_scan (c := ⟨offset, lexeme.toList ++ rest⟩) (by rw [hskip]; exact hscan)
    rw [List.nil_append, hnext, hskip]
    simp only [drop, List.take_left, List.drop_left, String.ofList_toList, Text.byteLength_nil,
      Nat.add_zero]
  | cons b blanks ih =>
    obtain ⟨hb, hblanks⟩ := List.forall_mem_cons.1 hblank
    have hnext := ih (offset + b.utf8Size) hblanks
    rw [Text.byteLength_cons, ← Nat.add_assoc, ← hnext]
    simp only [next, List.cons_append, skipBlanks_cons hb]

/-- The tokens up to a place and those from there on are the tokens of the text. -/
theorem Emits.tokens_eq {c d : Cursor} {ts more : List Token} (h : Emits c ts d)
    (hd : d.tokens = .ok more) : c.tokens = .ok (ts ++ more) := by
  induction h with
  | nil => exact hd
  | cons hnext ht _ ih =>
    rw [tokens_of_next hnext ht, ih hd]
    rfl

/-- **Tokens do not change with what follows them,** as long as none of them would have come out
otherwise: so the text before them can be followed by `rest'`. -/
theorem Emits.replace {c d : Cursor} {ts : List Token} (h : Emits c ts d) (rest' : List Char)
    (hrest : ∀ front kind n, Lexer.scan (front ++ d.rest) = some (kind, n) → n ≤ front.length →
      Lexer.scan (front ++ rest') = some (kind, n)) :
    ∃ pre, c.rest = pre ++ d.rest ∧ d.offset = c.offset + Text.byteLength pre ∧
      Emits ⟨c.offset, pre ++ rest'⟩ ts ⟨d.offset, rest'⟩ := by
  induction h with
  | nil c => exact ⟨[], rfl, rfl, .nil _⟩
  | @cons c m d t ts hnext ht _ ih =>
    obtain ⟨pre, hpre, hoffset, hemits⟩ := ih hrest
    obtain ⟨blanks, hblank, -, hstart, hstop, hmiddle, hscan⟩ := next_stands hnext ht
    refine ⟨blanks ++ (t.lexeme.toList ++ pre), ?_, ?_, ?_⟩
    · rw [hmiddle, hpre]
      simp
    · rw [hoffset, hstop, Token.stop, hstart]
      simp [Text.byteLength_toList, Nat.add_assoc]
    · rw [hpre, ← List.append_assoc] at hscan
      have hscan' := hrest _ _ _ hscan (by simp)
      rw [List.append_assoc] at hscan'
      have hnext' := next_of_stands c.offset hblank hscan'
      rw [← hstart, Text.byteLength_toList, ← Token.stop, ← hstop] at hnext'
      simp only [List.append_assoc]
      exact .cons hnext' ht hemits

/-- **Tokens do not change when the text is cut off behind them,** anywhere. -/
theorem Emits.cut {c d : Cursor} {ts : List Token} (h : Emits c ts d) {kept lost : List Char}
    (hd : d.rest = kept ++ lost) : ∃ pre, c.rest = pre ++ d.rest ∧
      d.offset = c.offset + Text.byteLength pre ∧
      Emits ⟨c.offset, pre ++ kept⟩ ts ⟨d.offset, kept⟩ := by
  refine h.replace kept fun front kind n hscan hn => ?_
  rw [hd, ← List.append_assoc] at hscan
  have htake := Lexer.scan_take_of_le (m := (front ++ kept).length) hscan
    (by rw [List.length_append]; omega)
  rwa [List.take_left] at htake

/-- White space alone has no token but the end of input. -/
theorem tokens_of_blanks (offset : Nat) {blanks : List Char}
    (h : ∀ x ∈ blanks, Text.isBlank x = true) : (Cursor.mk offset blanks).tokens =
      .ok [⟨.endOfInput, "", offset + Text.byteLength blanks⟩] := by
  have hskip : (Cursor.mk offset blanks).skipBlanks =
      ⟨offset + Text.byteLength blanks, []⟩ := by
    rw [skipBlanks, List.takeWhile_eq_self_iff.2 h, List.dropWhile_eq_nil_iff.2 h]
  have hnext := next_of_nil (c := Cursor.mk offset blanks) (by rw [hskip])
  rw [hskip] at hnext
  exact tokens_of_endOfInput hnext rfl

end Cursor

/-- **Splitting a text into tokens loses nothing.**  If it succeeds, the tokens are followed by a
single end of input, without a lexeme and at the byte length of the text; each of them has a
lexeme, which is the piece of text at the token's byte offset, and starts where the one before it
stops, or later; and each character outside of the tokens is white space.  If it fails at a byte
offset, the character found stands there, and the text before it has just the tokens that were taken
before the failure. -/
theorem Token.ofText_loses_nothing (source : String) :
    match ofText source with
    | .ok ts => ∃ us, ts = us ++ [⟨.endOfInput, "", source.utf8ByteSize⟩] ∧
        (∀ t ∈ us, t.kind ≠ .endOfInput ∧ t.lexeme ≠ "" ∧ ∃ pre post,
          source.toList = pre ++ t.lexeme.toList ++ post ∧ Text.byteLength pre = t.offset) ∧
        us.Pairwise (fun t u => t.offset < u.offset ∧ t.stop ≤ u.offset) ∧
        ∀ pre c post, source.toList = pre ++ c :: post → Text.isBlank c = true ∨
          ∃ t ∈ us, t.offset ≤ Text.byteLength pre ∧ Text.byteLength pre < t.stop
    | .error e => ∃ pre post ts place, source.toList = pre ++ e.found :: post ∧
        Text.byteLength pre = e.offset ∧ Cursor.Emits (.start source) ts place ∧
        place.next = (.error e, place.skipBlanks) ∧
        ofText (String.ofList pre) = .ok (ts ++ [⟨.endOfInput, "", e.offset⟩]) := by
  split
  · next ts h =>
    obtain ⟨us, hts, hkinds, hlaid⟩ := Cursor.laid_of_tokens _ h
    refine ⟨us, ?_, fun t ht => ⟨hkinds t ht, hlaid.lexeme_ne_empty t ht, ?_⟩, ?_, ?_⟩
    · rw [hts, Cursor.start, Text.byteLength_toList, Nat.zero_add]
    · simpa [Cursor.start] using hlaid.stands t ht
    · refine hlaid.pairwise_stop_le.imp_of_mem fun ht _ hle => ⟨?_, hle⟩
      exact Nat.lt_of_lt_of_le (offset_lt_stop (hlaid.lexeme_ne_empty _ ht)) hle
    · intro pre c post hsplit
      simpa [Cursor.start] using hlaid.isBlank_or_covered hsplit
  · next e h =>
    obtain ⟨ts, place, hemits, hplace⟩ := Cursor.exists_emits_of_error _ h
    obtain ⟨-, blanks, post, hblank, hrest, hoffset⟩ := Cursor.next_eq_error hplace
    obtain ⟨pre, hpre, hstart, hcut⟩ := hemits.cut hrest
    refine ⟨pre ++ blanks, post, ts, place, ?_, ?_, hemits, hplace, ?_⟩
    · have hsource : source.toList = pre ++ place.rest := hpre
      rw [hsource, hrest, List.append_assoc]
    · rw [Text.byteLength_append, hoffset, hstart, Cursor.start, Nat.zero_add]
    · rw [ofText, Cursor.start, String.toList_ofList, hoffset]
      exact hcut.tokens_eq (Cursor.tokens_of_blanks place.offset hblank)

end FilterQuery
