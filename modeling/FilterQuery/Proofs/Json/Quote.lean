import FilterQuery.Json.Document
import FilterQuery.Proofs.Json.Text

/-!
# Proofs/Json/Quote — a quoted string is read as the string it quotes

`quoteChar` writes a character in one of three ways (`quoteChar_cases`): with an escape of one
letter, with its number, or as it is.  Each of them is in the grammar of strings
(`stringText_quote`), so **a quoted string is one token and its value is the string**
(`isLexeme_quote`, `read_quote`).
-/

namespace FilterQuery.Json

open FilterQuery.Rule (apply_bind_of_ok)

/-! ## The three ways to write a character -/

theorem quoteChar_cases (c : Char) :
    (∃ d, quoteChar c = ['\\', d] ∧ letterEscapes.lookup d = some c) ∨
      (c.toNat < 0x20 ∧ quoteChar c =
        ['\\', 'u', '0', '0', lowerHexDigit (c.toNat / 16), lowerHexDigit (c.toNat % 16)]) ∨
      (¬ c.toNat < 0x20 ∧ c ≠ '"' ∧ c ≠ '\\' ∧ quoteChar c = [c]) := by
  by_cases hletter : c ∈ ['"', '\\', '\x08', '\x0c', '\n', '\r', '\t']
  · left
    simp only [List.mem_cons, List.not_mem_nil, or_false] at hletter
    rcases hletter with rfl | rfl | rfl | rfl | rfl | rfl | rfl
    all_goals exact ⟨_, rfl, rfl⟩
  · right
    have hlookup : [('"', '"'), ('\\', '\\'), ('\x08', 'b'), ('\x0c', 'f'), ('\n', 'n'),
        ('\r', 'r'), ('\t', 't')].lookup c = none := by
      simpa [List.lookup_eq_none_iff] using hletter
    simp only [List.mem_cons, List.not_mem_nil, or_false, not_or] at hletter
    rw [quoteChar, hlookup]
    by_cases hc : c.toNat < 0x20
    · exact Or.inl ⟨hc, if_pos hc⟩
    · exact Or.inr ⟨hc, hletter.1, hletter.2.1, if_neg hc⟩

theorem hexQuad?_lowerHexDigit {n : Nat} (h : n < 0x20) :
    hexQuad? ['0', '0', lowerHexDigit (n / 16), lowerHexDigit (n % 16)] = some n := by
  revert n
  decide

theorem escapeText_number {n : Nat} (h : n < 0x20) :
    EscapeText ['u', '0', '0', lowerHexDigit (n / 16), lowerHexDigit (n % 16)] (Char.ofNat n) := by
  refine .number (hexQuad?_lowerHexDigit h) ?_ ?_
  · rw [isLowSurrogate, Bool.and_eq_false_iff, decide_eq_false_iff_not]
    omega
  · rw [isHighSurrogate, Bool.and_eq_false_iff, decide_eq_false_iff_not]
    omega

/-- **A quoted string is in the grammar of strings.** -/
theorem stringText_quote (cs : List Char) : StringText (cs.flatMap quoteChar ++ ['"']) cs := by
  induction cs with
  | nil => exact .close
  | cons c cs ih =>
    rw [List.flatMap_cons, List.append_assoc]
    rcases quoteChar_cases c with ⟨d, hc, hd⟩ | ⟨hlt, hc⟩ | ⟨hlt, hquote, hbackslash, hc⟩
    · rw [hc]
      exact .escape (.letter hd) ih
    · have hescape := StringText.escape (escapeText_number hlt) ih
      rw [Char.ofNat_toNat] at hescape
      rw [hc]
      exact hescape
    · rw [hc]
      exact .character hquote hbackslash hlt ih

/-! ## Reading it back -/

theorem toList_quote (s : String) :
    (quote s).toList = '"' :: (s.toList.flatMap quoteChar ++ ['"']) := by
  rw [quote, String.toList_ofList, List.cons_append]

/-- **A quoted string stands for the string.** -/
theorem read_quote (s : String) : read (quote s) = .ok (.str s) := by
  have htail : textTail.apply (s.toList.flatMap quoteChar ++ ['"']) = (.ok s.toList, []) := by
    have := (stringText_quote s.toList).apply []
    rwa [List.append_nil] at this
  have hvalue : (value maxDepth).apply (quote s).toList = (.ok (.str s), []) := by
    have hrun : ∀ t, (value maxDepth).apply ('"' :: t) =
        Rule.apply (do return .str (String.ofList (← textTail))) t := fun _ => rfl
    rw [toList_quote, hrun, apply_bind_of_ok htail, String.ofList_toList]
    rfl
  have hdocument : document.apply (quote s).toList = (.ok (.str s), []) := by
    rw [document, apply_bind_of_ok hvalue]
    rfl
  rw [read, hdocument]
  rfl

/-- **A quoted string is one token.** -/
theorem isLexeme_quote (s : String) : Word.IsLexeme (.literal .string, quote s) := by
  have hlength := (stringText_quote s.toList).quoted.stringTailLength?_eq
  rw [Word.IsLexeme, toList_quote, Lexer.scan_string, hlength, List.length_cons, Nat.add_comm]
  rfl

end FilterQuery.Json
