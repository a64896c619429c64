import FilterQuery.Text.Blank
import FilterQuery.Text.Offset
import FilterQuery.Token

/-!
# Token/Lexer — the tokens of a text

`scan` says which token a text starts with and how many characters it has: always the most that any
class of tokens allows. `Cursor.next` skips white space and takes one token, `Token.ofText` takes
them all. A character that starts no token is a `LexError`.
-/

namespace FilterQuery

/-- No token starts at `offset`, where `found` stands. -/
structure LexError where
  offset : Nat
  found : Char
  deriving DecidableEq, Inhabited

/-- The message of a lexical error. -/
def LexError.message (e : LexError) : String :=
  "Unexpected character '" ++ e.found.toString ++ "' at offset " ++ toString e.offset

namespace Lexer

/-! ## The classes of tokens -/

/-- The length of the run of digits at the front. -/
def digitsLength (cs : List Char) : Nat :=
  (cs.takeWhile Char.isDigit).length

/-- The length of a leading sign `c`. -/
def signLength (signs : List Char) : List Char → Nat
  | c :: _ => if c ∈ signs then 1 else 0
  | [] => 0

/-- The length of an integer without superfluous zeros. -/
def integerLength? : List Char → Option Nat
  | c :: cs =>
    if c = '0' then some 1
    else if c.isDigit then some (1 + digitsLength cs)
    else none
  | [] => none

/-- The length of a fraction: a point and at least one digit. -/
def fractionLength : List Char → Nat
  | c :: cs => if c = '.' ∧ digitsLength cs ≠ 0 then 1 + digitsLength cs else 0
  | [] => 0

/-- The length of an exponent: a letter, perhaps a sign, and at least one digit. -/
def exponentLength : List Char → Nat
  | c :: cs =>
    let sign := signLength ['+', '-'] cs
    let digits := digitsLength (cs.drop sign)
    if (c = 'e' ∨ c = 'E') ∧ digits ≠ 0 then 1 + sign + digits else 0
  | [] => 0

/-- The length of a number: perhaps a minus, an integer, and perhaps a fraction and an exponent. -/
def numberLength? (cs : List Char) : Option Nat := do
  let sign := signLength ['-'] cs
  let integer ← integerLength? (cs.drop sign)
  let whole := sign + integer
  let fraction := fractionLength (cs.drop whole)
  return whole + fraction + exponentLength (cs.drop (whole + fraction))

/-- The length of a string after its opening quote. A backslash takes the next character with it,
which may be any but a line feed. -/
def stringTailLength? : List Char → Option Nat
  | [] => none
  | '"' :: _ => some 1
  | '\\' :: c :: cs => if c = '\n' then none else (stringTailLength? cs).map (· + 2)
  | _ :: cs => (stringTailLength? cs).map (· + 1)

/-- The length of a word, which holds ASCII letters and digits only. -/
def wordLength (cs : List Char) : Nat :=
  (cs.takeWhile Char.isAlphanum).length

/-- Five words are keywords, in this spelling only. -/
def wordKind (word : List Char) : Token.Kind :=
  if word = ['A', 'N', 'D'] then .connector .and
  else if word = ['O', 'R'] then .connector .or
  else if word = ['t', 'r', 'u', 'e'] then .literal .true
  else if word = ['f', 'a', 'l', 's', 'e'] then .literal .false
  else if word = ['n', 'u', 'l', 'l'] then .literal .null
  else .segment

/-- The length of the run of `c` at the front, at most `most`. -/
def runLength (c : Char) (most : Nat) (cs : List Char) : Nat :=
  ((cs.take most).takeWhile (· == c)).length

/-! ## One token -/

/-- The kind and the length of the token at the front of a text that starts with `c`. -/
def scanFrom (c : Char) (cs : List Char) : Option (Token.Kind × Nat) :=
  match Punct.ofChar? c with
  | some p => some (.punct p, 1)
  | none =>
    if c = '>' then
      if runLength '=' 1 cs = 1 then some (.comparator .greaterEqual, 2)
      else some (.comparator .greater, 1)
    else if c = '<' then
      if runLength '=' 1 cs = 1 then some (.comparator .lessEqual, 2)
      else some (.comparator .less, 1)
    else if c = '=' then some (.comparator .equal, 1 + runLength '=' 2 cs)
    else if c = '!' then
      if runLength '=' 2 cs = 0 then none
      else some (.comparator .notEqual, 1 + runLength '=' 2 cs)
    else if c = '-' ∨ c.isDigit then
      (numberLength? (c :: cs)).map fun n => (.literal .number, n)
    else if c = '"' then
      (stringTailLength? cs).map fun n => (.literal .string, 1 + n)
    else if c.isAlpha then
      let n := wordLength (c :: cs)
      some (wordKind ((c :: cs).take n), n)
    else none

/-- The kind and the length of the token at the front of a text. -/
def scan : List Char → Option (Token.Kind × Nat)
  | [] => none
  | c :: cs => scanFrom c cs

theorem integerLength?_pos {cs : List Char} {n : Nat} (h : integerLength? cs = some n) :
    0 < n := by
  match cs with
  | [] => cases h
  | c :: cs =>
    simp only [integerLength?] at h
    split at h
    · cases h
      exact Nat.one_pos
    · split at h
      · cases h
        omega
      · cases h

theorem numberLength?_pos {cs : List Char} {n : Nat} (h : numberLength? cs = some n) : 0 < n := by
  obtain ⟨i, hi, hn⟩ := Option.bind_eq_some_iff.1 h
  have hpos := integerLength?_pos hi
  cases hn
  omega

theorem wordLength_pos {c : Char} (h : c.isAlpha = true) (cs : List Char) :
    0 < wordLength (c :: cs) := by
  have hc : c.isAlphanum = true := by simp [Char.isAlphanum, h]
  simp [wordLength, hc]

/-- **A token is never empty.** -/
theorem scan_pos {cs : List Char} {kind : Token.Kind} {n : Nat} (h : scan cs = some (kind, n)) :
    0 < n := by
  match cs with
  | [] => cases h
  | c :: cs =>
    simp only [scan, scanFrom] at h
    repeat' split at h
    all_goals try cases h
    all_goals try omega
    · obtain ⟨m, hm, he⟩ := Option.map_eq_some_iff.1 h
      cases he
      exact numberLength?_pos hm
    · obtain ⟨m, -, he⟩ := Option.map_eq_some_iff.1 h
      cases he
      omega
    · exact wordLength_pos (by assumption) cs

theorem wordKind_ne_endOfInput (word : List Char) : wordKind word ≠ .endOfInput := by
  unfold wordKind
  repeat' split
  all_goals exact Token.Kind.noConfusion

/-- **No token at the front of a text is the end of input.** -/
theorem scan_ne_endOfInput {cs : List Char} {kind : Token.Kind} {n : Nat}
    (h : scan cs = some (kind, n)) : kind ≠ .endOfInput := by
  rintro rfl
  match cs with
  | [] => cases h
  | c :: cs =>
    simp only [scan, scanFrom] at h
    repeat' split at h
    all_goals try cases h
    · obtain ⟨m, -, he⟩ := Option.map_eq_some_iff.1 h
      cases he
    · obtain ⟨m, -, he⟩ := Option.map_eq_some_iff.1 h
      cases he
    · exact wordKind_ne_endOfInput _ (congrArg Prod.fst (Option.some.inj h))

end Lexer

/-! ## All tokens -/

/-- A place in a text: its byte offset and what comes after it. -/
structure Cursor where
  offset : Nat
  rest : List Char
  deriving DecidableEq, Inhabited

namespace Cursor

/-- The start of a text. -/
def start (text : String) : Cursor :=
  ⟨0, text.toList⟩

/-- The place `n` characters on. -/
def drop (c : Cursor) (n : Nat) : Cursor :=
  ⟨c.offset + Text.byteLength (c.rest.take n), c.rest.drop n⟩

/-- The place after the white space here. -/
def skipBlanks (c : Cursor) : Cursor :=
  ⟨c.offset + Text.byteLength (c.rest.takeWhile Text.isBlank), c.rest.dropWhile Text.isBlank⟩

/-- Skips white space and takes one token. At the end of the text that is the end of input, again
and again; where no token starts, the place is kept that the white space led to. -/
def next (c : Cursor) : Except LexError Token × Cursor :=
  let c := c.skipBlanks
  match c.rest with
  | [] => (.ok ⟨.endOfInput, "", c.offset⟩, c)
  | found :: _ =>
    match Lexer.scan c.rest with
    | some (kind, n) => (.ok ⟨kind, String.ofList (c.rest.take n), c.offset⟩, c.drop n)
    | none => (.error ⟨c.offset, found⟩, c)

theorem length_skipBlanks_le (c : Cursor) : c.skipBlanks.rest.length ≤ c.rest.length :=
  (List.dropWhile_sublist Text.isBlank).length_le

/-- **Every token but the end of input shortens the text.** -/
theorem length_rest_next_lt {c d : Cursor} {t : Token} (h : c.next = (.ok t, d))
    (ht : t.kind ≠ .endOfInput) : d.rest.length < c.rest.length := by
  have hle := c.length_skipBlanks_le
  simp only [next] at h
  split at h
  · cases h
    exact absurd rfl ht
  · next found rest heq =>
    split at h
    · next kind n hscan =>
      cases h
      have hn := Lexer.scan_pos hscan
      simp only [drop, List.length_drop]
      simp only [heq, List.length_cons] at hle ⊢
      omega
    · cases h

/-- The tokens from a place on; the last one is the end of input. -/
def tokens (c : Cursor) : Except LexError (List Token) :=
  match h : c.next with
  | (.error e, _) => .error e
  | (.ok t, d) =>
    if ht : t.kind = .endOfInput then .ok [t]
    else
      have : d.rest.length < c.rest.length := length_rest_next_lt h ht
      (tokens d).map (t :: ·)
termination_by c.rest.length

end Cursor

/-- The tokens of a text; the last one is the end of input. -/
def Token.ofText (text : String) : Except LexError (List Token) :=
  (Cursor.start text).tokens

end FilterQuery
