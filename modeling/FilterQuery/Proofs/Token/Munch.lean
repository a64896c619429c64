import FilterQuery.Proofs.Json.Numeral
import FilterQuery.Proofs.Token.Layout

/-!
# Proofs/Token/Munch — the next token is the longest there is

    text       012    1e5x   1e     1.     ===!=   "a\"b"   ANDy
    token      0      1e5    1      1      ===     "a\"b"   ANDy

`Pattern kind cs` says what the tokens of a kind look like, one pattern for each class of tokens.
That is what `scan` finds in a text that is one token (`scan_eq_length_iff`), and nothing of a text
in a pattern is given up when more characters follow (`scan_append_of_pattern`): a part of a number
that only half matches is no number yet, a string ends at its first quote that no backslash takes,
and a run goes on as long as it can.  So from any place **the next token is the longest text in any
pattern that the place starts with, and there is none exactly if no text in a pattern does**
(`next_is_longest`).
-/

namespace FilterQuery

open Json

namespace Lexer

/-! ## The patterns -/

/-- The words that are no names, and what they are instead. -/
def keywords : List (List Char × Token.Kind) :=
  [(['A', 'N', 'D'], .connector .and), (['O', 'R'], .connector .or),
    (['t', 'r', 'u', 'e'], .literal .true), (['f', 'a', 'l', 's', 'e'], .literal .false),
    (['n', 'u', 'l', 'l'], .literal .null)]

/-- What the tokens of each kind look like. -/
inductive Pattern : Token.Kind → List Char → Prop
  | punct (p : Punct) : Pattern (.punct p) [p.char]
  | greater : Pattern (.comparator .greater) ['>']
  | greaterEqual : Pattern (.comparator .greaterEqual) ['>', '=']
  | less : Pattern (.comparator .less) ['<']
  | lessEqual : Pattern (.comparator .lessEqual) ['<', '=']
  | equal {n : Nat} : 1 ≤ n → n ≤ 3 → Pattern (.comparator .equal) (List.replicate n '=')
  | notEqual {n : Nat} : 1 ≤ n → n ≤ 2 →
      Pattern (.comparator .notEqual) ('!' :: List.replicate n '=')
  | number {cs : List Char} {numeral : Numeral} : NumberText cs numeral →
      Pattern (.literal .number) cs
  | string {cs : List Char} : Quoted cs → Pattern (.literal .string) ('"' :: cs)
  | keyword {word : List Char} {kind : Token.Kind} : (word, kind) ∈ keywords → Pattern kind word
  | name {c : Char} {cs : List Char} : c.isAlpha = true → (∀ d ∈ cs, d.isAlphanum = true) →
      (∀ k ∈ keywords, k.1 ≠ c :: cs) → Pattern .segment (c :: cs)

variable {kind kind' : Token.Kind} {cs xs ys ds : List Char}

/-! ## A text in a pattern is one token -/

/-- What is none of the five keywords is a name. -/
theorem wordKind_of_ne_keywords (h : ∀ k ∈ keywords, k.1 ≠ xs) : wordKind xs = .segment := by
  simp only [keywords, List.forall_mem_cons] at h
  obtain ⟨hand, hor, htrue, hfalse, hnull, -⟩ := h
  rw [wordKind, if_neg hand.symm, if_neg hor.symm, if_neg htrue.symm, if_neg hfalse.symm,
    if_neg hnull.symm]

/-- A word has the kind of a keyword, or it is none and a name. -/
theorem wordKind_cases (xs : List Char) :
    (xs, wordKind xs) ∈ keywords ∨ wordKind xs = .segment ∧ ∀ k ∈ keywords, k.1 ≠ xs := by
  by_cases h : ∃ k ∈ keywords, k.1 = xs
  · obtain ⟨⟨_, kind⟩, hk, rfl⟩ := h
    simp only [keywords, List.mem_cons, Prod.mk.injEq, List.not_mem_nil, or_false] at hk
    rcases hk with ⟨rfl, rfl⟩ | ⟨rfl, rfl⟩ | ⟨rfl, rfl⟩ | ⟨rfl, rfl⟩ | ⟨rfl, rfl⟩ <;>
      exact Or.inl (by decide)
  · have hne : ∀ k ∈ keywords, k.1 ≠ xs := fun k hk heq => h ⟨k, hk, heq⟩
    exact Or.inr ⟨wordKind_of_ne_keywords hne, hne⟩

/-- The keywords are words, each of its own kind. -/
theorem word_of_mem_keywords (h : (xs, kind) ∈ keywords) : wordKind xs = kind ∧
    ∃ c cs, xs = c :: cs ∧ c.isAlpha = true ∧ ∀ d ∈ cs, d.isAlphanum = true := by
  simp only [keywords, List.mem_cons, Prod.mk.injEq, List.not_mem_nil, or_false] at h
  rcases h with ⟨rfl, rfl⟩ | ⟨rfl, rfl⟩ | ⟨rfl, rfl⟩ | ⟨rfl, rfl⟩ | ⟨rfl, rfl⟩ <;>
    exact ⟨rfl, _, _, rfl, rfl, List.all_eq_true.1 rfl⟩

/-! ## What goes on after a text in a pattern -/

/-- A run that is there is counted, whatever follows. -/
theorem le_runLength_append {m most : Nat} (h : m ≤ most) (c : Char) (ds : List Char) :
    m ≤ runLength c most (List.replicate m c ++ ds) := by
  obtain ⟨more, rfl⟩ := Nat.exists_eq_add_of_le h
  rw [runLength, List.take_append, List.length_replicate, List.take_of_length_le (by simp),
    List.takeWhile_append_of_pos (by simp), List.length_append, List.length_replicate]
  exact Nat.le_add_right m _

theorem le_digitsLength_append (h : ∀ d ∈ xs, d.isDigit = true) (ds : List Char) :
    xs.length ≤ digitsLength (xs ++ ds) := by
  rw [digitsLength, List.takeWhile_append_of_pos h, List.length_append]
  exact Nat.le_add_right ..

/-- An integer is read to its end at least, whatever follows. -/
theorem le_integerLength?_append (h : IntegerText xs) (ds : List Char) :
    ∃ n, integerLength? (xs ++ ds) = some n ∧ xs.length ≤ n := by
  cases h with
  | zero => exact ⟨1, rfl, Nat.le_refl 1⟩
  | @digits d cs hd hcs =>
    have hle := le_digitsLength_append (fun c hc => hcs.digit c (List.mem_cons_of_mem d hc)) ds
    refine ⟨1 + digitsLength (cs ++ ds), ?_, ?_⟩
    · rw [List.cons_append, integerLength?, if_neg hd, if_pos (hcs.digit d List.mem_cons_self)]
    · rw [List.length_cons]
      omega

/-- A fraction is read to its end at least, whatever follows. -/
theorem le_fractionLength_append {fraction : List Nat} (h : FractionText xs fraction)
    (ds : List Char) : xs.length ≤ fractionLength (xs ++ ds) := by
  cases h with
  | none => exact Nat.zero_le _
  | @point cs hcs =>
    have hle := le_digitsLength_append hcs.digit ds
    have hpos := List.length_pos_iff.2 hcs.ne_nil
    rw [List.cons_append, fractionLength, if_pos ⟨rfl, by omega⟩, List.length_cons]
    omega

/-- An exponent is read to its end at least, whatever follows. -/
theorem le_exponentLength_append {exponent : Option Exponent} (h : ExponentText xs exponent)
    (ds : List Char) : xs.length ≤ exponentLength (xs ++ ds) := by
  cases h with
  | none => exact Nat.zero_le _
  | @plain e cs he hcs =>
    obtain ⟨d, cs', hcons, hd⟩ := hcs.head
    have hsign : signLength ['+', '-'] (cs ++ ds) = 0 := by
      rw [hcons, List.cons_append, signLength, if_neg]
      simpa using ⟨ne_of_isDigit hd (by decide), ne_of_isDigit hd (by decide)⟩
    have hle := le_digitsLength_append hcs.digit ds
    have hpos := List.length_pos_iff.2 hcs.ne_nil
    simp only [List.cons_append, exponentLength, hsign, List.drop_zero, List.length_cons]
    rw [if_pos ⟨by simpa using he, by omega⟩]
    omega
  | @signed e sign cs he hsign hcs =>
    have hone : signLength ['+', '-'] (sign :: (cs ++ ds)) = 1 := if_pos hsign
    have hle := le_digitsLength_append hcs.digit ds
    have hpos := List.length_pos_iff.2 hcs.ne_nil
    simp only [List.cons_append, exponentLength, hone, List.drop_succ_cons, List.drop_zero,
      List.length_cons]
    rw [if_pos ⟨by simpa using he, by omega⟩]
    omega

/-- A part of a number that is there ends those before it, and otherwise they may go on. -/
theorem le_decimals_append {fraction : List Nat} {exponent : Option Exponent}
    {is fs es text : List Char} (his : IntegerText is) (hfs : FractionText fs fraction)
    (hes : ExponentText es exponent) (htext : text = is ++ (fs ++ (es ++ ds))) :
    ∃ n, integerLength? text = some n ∧ is.length + fs.length + es.length ≤
      n + fractionLength (text.drop n) +
        exponentLength (text.drop (n + fractionLength (text.drop n))) := by
  subst htext
  by_cases hnone : es = []
  · subst hnone
    by_cases hwhole : fs = []
    · subst hwhole
      obtain ⟨n, hn, hle⟩ := le_integerLength?_append his ds
      refine ⟨n, hn, ?_⟩
      simp only [List.length_nil]
      omega
    · have hends : EndsDigits (fs ++ ds) := by
        cases hfs with
        | none => exact absurd rfl hwhole
        | point =>
          rintro c ⟨⟩
          decide
      refine ⟨is.length, his.integerLength?_eq hends, ?_⟩
      rw [List.nil_append, List.drop_left]
      have hle := le_fractionLength_append hfs ds
      simp only [List.length_nil]
      omega
  · have hhead : ∀ c ∈ (es ++ ds).head?, c.isDigit = false ∧ c ≠ '.' := by
      cases hes with
      | none => exact absurd rfl hnone
      | plain he | signed he =>
        rintro c ⟨⟩
        exact letter_of_mem he
    refine ⟨is.length, his.integerLength?_eq (hfs.endsDigits fun c hc => (hhead c hc).1), ?_⟩
    rw [List.drop_left, hfs.fractionLength_eq hhead, ← List.append_assoc, ← List.length_append,
      List.drop_left]
    exact Nat.add_le_add_left (le_exponentLength_append hes ds) _

/-- **Nothing of a number is given up for what follows it.** -/
theorem le_numberLength?_append {numeral : Numeral} (h : NumberText xs numeral) (ds : List Char) :
    ∃ n, numberLength? (xs ++ ds) = some n ∧ xs.length ≤ n := by
  obtain ⟨negative, his, hfs, hes⟩ := h
  rename_i is fs es fraction exponent
  generalize htext : is ++ (fs ++ (es ++ ds)) = text
  have hsign : signLength ['-'] (signText negative ++ text) = (signText negative).length :=
    htext ▸ signLength_signText negative his (fs ++ (es ++ ds))
  obtain ⟨n, hn, hle⟩ := le_decimals_append his hfs hes htext.symm
  have hdrop : ∀ k, (signText negative ++ text).drop ((signText negative).length + k) =
      text.drop k := fun k => by rw [← List.drop_drop, List.drop_left]
  have happend : signText negative ++ (is ++ (fs ++ es)) ++ ds = signText negative ++ text := by
    simp [← htext]
  rw [happend]
  refine ⟨_, numberLength?_eq_some_iff.2 ⟨n, ?_, rfl⟩, ?_⟩
  · rwa [hsign, List.drop_left]
  · simp only [hsign, Nat.add_assoc, hdrop, List.length_append] at hle ⊢
    omega

/-- **Nothing of a text in a pattern is given up for what follows it.** -/
theorem scan_append_of_pattern (h : Pattern kind xs) (ds : List Char) :
    ∃ kind' n, scan (xs ++ ds) = some (kind', n) ∧ xs.length ≤ n ∧ (ds = [] → kind' = kind) := by
  have hword : ∀ c cs, c.isAlpha = true → (∀ d ∈ cs, d.isAlphanum = true) →
      ∃ kind' n, scan (c :: cs ++ ds) = some (kind', n) ∧ (c :: cs).length ≤ n ∧
        (ds = [] → kind' = wordKind (c :: cs)) := by
    intro c cs hc hcs
    have hall : ∀ d ∈ c :: cs, d.isAlphanum = true :=
      List.forall_mem_cons.2 ⟨isAlphanum_iff.2 (Or.inl hc), hcs⟩
    refine ⟨_, _, scan_word hc (cs ++ ds), ?_, fun hds => ?_⟩
    · rw [← List.cons_append, List.takeWhile_append_of_pos hall, List.length_append]
      exact Nat.le_add_right ..
    · rw [hds, List.append_nil, List.takeWhile_eq_self_iff.2 hall]
  cases h with
  | punct p => exact ⟨_, _, scan_punct p ds, Nat.le_refl 1, fun _ => rfl⟩
  | greater =>
    rw [List.singleton_append, scan_greater]
    split
    · next hrun => exact ⟨_, _, rfl, by simp, fun hds => by rw [hds] at hrun; cases hrun⟩
    · exact ⟨_, _, rfl, Nat.le_refl 1, fun _ => rfl⟩
  | less =>
    rw [List.singleton_append, scan_less]
    split
    · next hrun => exact ⟨_, _, rfl, by simp, fun hds => by rw [hds] at hrun; cases hrun⟩
    · exact ⟨_, _, rfl, Nat.le_refl 1, fun _ => rfl⟩
  | greaterEqual => exact ⟨_, _, scan_greater ('=' :: ds), Nat.le_refl 2, fun _ => rfl⟩
  | lessEqual => exact ⟨_, _, scan_less ('=' :: ds), Nat.le_refl 2, fun _ => rfl⟩
  | @equal n hpos hmost =>
    obtain ⟨m, rfl⟩ := Nat.exists_eq_add_of_le' hpos
    have hrun := le_runLength_append (Nat.le_of_succ_le_succ hmost) '=' ds
    refine ⟨_, _, scan_equal (List.replicate m '=' ++ ds), ?_, fun _ => rfl⟩
    rw [List.length_replicate]
    omega
  | @notEqual n hpos hmost =>
    have hrun := le_runLength_append hmost '=' ds
    refine ⟨_, _, (scan_notEqual (List.replicate n '=' ++ ds)).trans (if_neg (by omega)), ?_,
      fun _ => rfl⟩
    rw [List.length_cons, List.length_replicate]
    omega
  | number hnumber =>
    obtain ⟨c, cs, hcons, hc⟩ := hnumber.exists_cons
    obtain ⟨n, hn, hle⟩ := le_numberLength?_append hnumber ds
    refine ⟨_, n, ?_, hle, fun _ => rfl⟩
    rw [hcons, List.cons_append] at hn ⊢
    rw [scan_number hc, hn]
    rfl
  | @string cs hquoted =>
    have htail := stringTailLength?_append hquoted.stringTailLength?_eq ds
    refine ⟨_, 1 + cs.length, ?_, ?_, fun _ => rfl⟩
    · rw [List.cons_append, scan_string, htail]
      rfl
    · rw [List.length_cons]
      omega
  | keyword hmem =>
    obtain ⟨hkind, c, cs, rfl, hc, hcs⟩ := word_of_mem_keywords hmem
    exact hkind ▸ hword c cs hc hcs
  | @name c cs hc hcs hne => exact wordKind_of_ne_keywords hne ▸ hword c cs hc hcs

/-! ## What is taken is in a pattern -/

theorem take_runLength (c : Char) (most : Nat) (cs : List Char) :
    cs.take (runLength c most cs) = List.replicate (runLength c most cs) c := by
  have hprefix : (cs.take most).takeWhile (· == c) <+: cs :=
    (List.takeWhile_prefix _).trans (List.take_prefix most cs)
  refine List.eq_replicate_iff.2 ⟨?_, fun d hd => ?_⟩
  · exact List.length_take_of_le (runLength_le_length c most cs)
  · rw [runLength, ← List.prefix_iff_eq_take.1 hprefix] at hd
    exact beq_iff_eq.1 (List.all_eq_true.1 List.all_takeWhile d hd)

/-- What is read of a string is a quoted text. -/
theorem quoted_take {n : Nat} (h : stringTailLength? cs = some n) : Quoted (cs.take n) := by
  fun_induction stringTailLength? cs generalizing n with
  | case1 => cases h
  | case2 cs =>
    cases h
    exact .close
  | case3 cs => cases h
  | case4 c cs hc ih =>
    obtain ⟨m, hm, rfl⟩ := Option.map_eq_some_iff.1 h
    exact .backslash hc (ih hm)
  | case5 c cs hquote hbackslash ih =>
    obtain ⟨m, hm, rfl⟩ := Option.map_eq_some_iff.1 h
    exact .character hquote (ne_backslash_of_stringTailLength? hm hbackslash) (ih hm)

/-- **What is found at the front of a text is in the pattern of its kind.** -/
theorem pattern_of_scan {n : Nat} (h : scan cs = some (kind, n)) : Pattern kind (cs.take n) := by
  rcases cs with _ | ⟨c, cs⟩
  · cases h
  rcases first_of_scan h with ⟨p, rfl⟩ | (rfl | rfl | rfl | rfl) | hnumber | rfl | halpha
  · rw [scan_punct] at h
    cases h
    exact .punct p
  · rw [scan_greater] at h
    split at h <;> cases h
    · next hrun =>
      have htake := take_runLength '=' 1 cs
      rw [hrun] at htake
      rw [List.take_succ_cons, htake]
      exact .greaterEqual
    · exact .greater
  · rw [scan_less] at h
    split at h <;> cases h
    · next hrun =>
      have htake := take_runLength '=' 1 cs
      rw [hrun] at htake
      rw [List.take_succ_cons, htake]
      exact .lessEqual
    · exact .less
  · rw [scan_equal] at h
    cases h
    have hmost := runLength_le '=' 2 cs
    rw [Nat.add_comm, List.take_succ_cons, take_runLength]
    exact .equal (Nat.le_add_left ..) (by omega)
  · rw [scan_notEqual] at h
    split at h <;> cases h
    next hrun =>
    rw [Nat.add_comm, List.take_succ_cons, take_runLength]
    exact .notEqual (Nat.pos_of_ne_zero hrun) (runLength_le '=' 2 cs)
  · have hle := scan_le h
    rw [scan_number hnumber] at h
    obtain ⟨m, hm, heq⟩ := Option.map_eq_some_iff.1 h
    cases heq
    obtain ⟨numeral, htext⟩ := exists_numberText
      ((numberLength?_take hm (Nat.le_refl n)).trans
        (congrArg some (List.length_take_of_le hle).symm))
    exact .number htext
  · rw [scan_string] at h
    obtain ⟨m, hm, heq⟩ := Option.map_eq_some_iff.1 h
    cases heq
    rw [Nat.add_comm, List.take_succ_cons]
    exact .string (quoted_take hm)
  · rw [scan_word halpha] at h
    obtain ⟨rfl, rfl⟩ := Prod.mk.inj (Option.some.inj h)
    rw [← List.prefix_iff_eq_take.1 (List.takeWhile_prefix _)]
    rcases wordKind_cases ((c :: cs).takeWhile Char.isAlphanum) with hmem | ⟨hkind, hne⟩
    · exact .keyword hmem
    · rw [hkind]
      rw [List.takeWhile_cons_of_pos (isAlphanum_iff.2 (Or.inl halpha))] at hne ⊢
      exact .name halpha (List.all_eq_true.1 List.all_takeWhile) hne

/-- **The texts in a pattern are those that are one token.** -/
theorem scan_eq_length_iff : scan cs = some (kind, cs.length) ↔ Pattern kind cs := by
  constructor
  · intro h
    have hpattern := pattern_of_scan h
    rwa [List.take_length] at hpattern
  · intro h
    obtain ⟨kind', n, hscan, hle, hkind⟩ := scan_append_of_pattern h []
    rw [List.append_nil] at hscan
    rw [hscan, hkind rfl, Nat.le_antisymm hle (scan_le hscan)]

/-! ## The longest text in a pattern -/

/-- At the front of `cs`, no text in any pattern is longer than `xs`, which is in that of `kind` and
in no other. -/
structure Longest (kind : Token.Kind) (xs cs : List Char) : Prop where
  ne_nil : xs ≠ []
  front : xs <+: cs
  pattern : Pattern kind xs
  longest : ∀ kind' ys, Pattern kind' ys → ys <+: cs → ys.length ≤ xs.length
  only : ∀ kind', Pattern kind' xs → kind' = kind

/-- **What is scanned is longest:** it is in a pattern, and a longer text in one would have been
scanned in its place. -/
theorem longest_of_scan {n : Nat} (h : scan cs = some (kind, n)) :
    Longest kind (cs.take n) cs where
  ne_nil := List.ne_nil_of_length_pos <| by
    rw [List.length_take_of_le (scan_le h)]
    exact scan_pos h
  front := List.take_prefix n cs
  pattern := pattern_of_scan h
  longest := by
    rintro kind' ys hpattern ⟨rest, rfl⟩
    obtain ⟨_, m, hscan, hle, -⟩ := scan_append_of_pattern hpattern rest
    obtain ⟨-, rfl⟩ := Prod.mk.inj (Option.some.inj (hscan.symm.trans h))
    rwa [List.length_take_of_le (scan_le h)]
  only := fun kind' hpattern => by
    have hscan := scan_eq_length_iff.2 hpattern
    exact (Prod.mk.inj (Option.some.inj (hscan.symm.trans (scan_eq_length_iff.2
      (pattern_of_scan h))))).1

/-- **Where nothing is scanned no text in a pattern starts.** -/
theorem not_pattern_of_scan_eq_none (h : scan cs = none) (hxs : xs <+: cs) :
    ¬ Pattern kind xs := by
  obtain ⟨rest, rfl⟩ := hxs
  intro hpattern
  obtain ⟨_, _, hscan, -⟩ := scan_append_of_pattern hpattern rest
  rw [h] at hscan
  cases hscan

end Lexer

namespace Cursor

open Lexer

/-- **The next token is the longest there is.**  From any place in any text, white space aside: at
the end of the text it is the end of input; otherwise it is the longest text in any pattern that
the rest of the text starts with, it has the kind of that pattern, and the reader moves behind it.
It fails, at the first character that is not white space, where the reader then stays, exactly if
there is such a character and the text from there on starts with no text in any pattern. -/
theorem next_is_longest (c : Cursor) :
    (match c.next with
      | (.ok t, d) => t.offset = c.skipBlanks.offset ∧ d.offset = t.stop ∧
          c.skipBlanks.rest = t.lexeme.toList ++ d.rest ∧
          (c.skipBlanks.rest = [] ∧ t.kind = .endOfInput ∧ t.lexeme = "" ∨
            Longest t.kind t.lexeme.toList c.skipBlanks.rest)
      | (.error e, d) => d = c.skipBlanks ∧ e.offset = c.skipBlanks.offset ∧
          c.skipBlanks.rest.head? = some e.found) ∧
      ((∃ e, c.next = (.error e, c.skipBlanks)) ↔ c.skipBlanks.rest ≠ [] ∧
        ∀ kind xs, xs <+: c.skipBlanks.rest → ¬ Pattern kind xs) := by
  rcases hskip : c.skipBlanks.rest with _ | ⟨found, post⟩
  · rw [next_of_nil hskip]
    simp [hskip, Token.stop]
  · rcases hscan : scan c.skipBlanks.rest with _ | ⟨kind, n⟩
    · rw [next_of_scan_eq_none hskip hscan, ← hskip]
      refine ⟨⟨rfl, rfl, congrArg List.head? hskip⟩,
        ⟨fun _ => ⟨by simp [hskip], fun kind xs hxs => ?_⟩, fun _ => ⟨_, rfl⟩⟩⟩
      exact not_pattern_of_scan_eq_none hscan hxs
    · have hlongest := longest_of_scan hscan
      rw [next_of_scan hscan, ← hskip]
      refine ⟨⟨rfl, ?_, ?_, Or.inr ?_⟩, iff_of_false ?_ ?_⟩
      · rw [Token.stop, ← Text.byteLength_toList, String.toList_ofList]
        rfl
      · rw [String.toList_ofList]
        exact (List.take_append_drop n _).symm
      · rwa [String.toList_ofList]
      · rintro ⟨_, h⟩
        cases h
      · rintro ⟨-, hnone⟩
        exact hnone _ _ hlongest.front hlongest.pattern

end Cursor

end FilterQuery
