import FilterQuery.Json.Error

/-!
# Json/Text — strings between quotes

`textTail` reads the characters of a string after its opening quote and resolves the escapes;
`quote` writes a string with the escapes that it needs. A character beyond the basic plane may be
escaped as a pair of surrogates, which is the only use surrogates have.
-/

namespace FilterQuery.Json

/-- The number that a hexadecimal digit stands for. -/
def hexDigit? (c : Char) : Option Nat :=
  if c.isDigit then some (c.toNat - '0'.toNat)
  else if 'a' ≤ c ∧ c ≤ 'f' then some (c.toNat - 'a'.toNat + 10)
  else if 'A' ≤ c ∧ c ≤ 'F' then some (c.toNat - 'A'.toNat + 10)
  else none

/-- The number that four hexadecimal digits stand for. -/
def hexQuad? : List Char → Option Nat
  | [a, b, c, d] => do
    return 4096 * (← hexDigit? a) + 256 * (← hexDigit? b) + 16 * (← hexDigit? c) + (← hexDigit? d)
  | _ => none

/-- Four hexadecimal digits. Four bytes are looked at, whatever characters they belong to. -/
def hexQuad : Rule Nat := do
  let s ← Rule.rest
  if Text.byteLength s < 4 then fail .endInString (Text.byteLength s)
  else
    match hexQuad? (s.take 4) with
    | none => fail .invalidEscape 4
    | some n =>
      for _ in [0, 1, 2, 3] do Rule.skip
      return n

/-- Whether a number is the first half of a surrogate pair. -/
def isHighSurrogate (n : Nat) : Bool :=
  0xd800 ≤ n && n ≤ 0xdbff

/-- Whether a number is the second half of a surrogate pair. -/
def isLowSurrogate (n : Nat) : Bool :=
  0xdc00 ≤ n && n ≤ 0xdfff

/-- The character that a surrogate pair stands for. -/
def pairChar (high low : Nat) : Char :=
  Char.ofNat (0x10000 + (high - 0xd800) * 0x400 + (low - 0xdc00))

/-- The next character has to be `c`, or else a high surrogate stays alone. -/
def expectInPair (c : Char) : Rule Unit := do
  match ← Rule.peek with
  | none => fail .endInString 0
  | some d => if d = c then Rule.skip else fail .unpairedSurrogate 1

/-- A character given by its number, or by two if they are surrogates. -/
def hexEscape : Rule Char := do
  let n ← hexQuad
  if isLowSurrogate n then fail .loneSurrogate 0
  else if isHighSurrogate n then
    expectInPair '\\'
    expectInPair 'u'
    let low ← hexQuad
    if isLowSurrogate low then return pairChar n low else fail .loneSurrogate 0
  else return Char.ofNat n

/-- The escapes of one letter, and what they stand for. -/
def letterEscapes : List (Char × Char) :=
  [('"', '"'), ('\\', '\\'), ('/', '/'), ('b', '\x08'), ('f', '\x0c'), ('n', '\n'), ('r', '\r'),
    ('t', '\t')]

/-- What a backslash makes of the characters after it. -/
def escape : Rule Char := do
  match ← Rule.peek with
  | none => fail .endInString 0
  | some c =>
    match letterEscapes.lookup c with
    | some d =>
      Rule.skip
      return d
    | none =>
      if c = 'u' then
        Rule.skip
        hexEscape
      else fail .invalidEscape 1

/-- What `textTail` reads. -/
def textTailFrom : List Char → Except Fault (List Char) × List Char
  | [] => (.error ⟨.endInString, 0⟩, [])
  | c :: s =>
    if c = '"' then (.ok [], s)
    else if c = '\\' then
      match (escape.apply s).1 with
      | .error e => (.error e, (escape.apply s).2)
      | .ok d =>
        let more := textTailFrom (escape.apply s).2
        (more.1.map (d :: ·), more.2)
    else if c.toNat < 0x20 then (.error ⟨.controlCharacter, Text.byteLength s⟩, s)
    else
      let more := textTailFrom s
      (more.1.map (c :: ·), more.2)
termination_by s => s.length
decreasing_by
  · exact Nat.lt_succ_of_le (escape.length_apply_le s)
  · exact Nat.lt_succ_self s.length

theorem textTailFrom_suffix (s : List Char) : (textTailFrom s).2 <:+ s := by
  fun_induction textTailFrom s with
  | case1 => exact List.suffix_rfl
  | case2 s => exact List.suffix_cons _ _
  | case3 s _ e he => exact (escape.suffix s).trans (List.suffix_cons _ _)
  | case4 s _ d hd more ih =>
    exact (ih.trans (escape.suffix s)).trans (List.suffix_cons _ _)
  | case5 c s => exact List.suffix_cons _ _
  | case6 c s _ _ _ more ih => exact ih.trans (List.suffix_cons _ _)

/-- The characters of a string up to its closing quote. -/
def textTail : Rule (List Char) :=
  .ofFun textTailFrom textTailFrom_suffix

/-! ## Writing -/

/-- The digit for a number below 16. -/
def lowerHexDigit (n : Nat) : Char :=
  Nat.digitChar n

/-- A character as it is written in a string. -/
def quoteChar (c : Char) : List Char :=
  match [('"', '"'), ('\\', '\\'), ('\x08', 'b'), ('\x0c', 'f'), ('\n', 'n'), ('\r', 'r'),
      ('\t', 't')].lookup c with
  | some d => ['\\', d]
  | none =>
    if c.toNat < 0x20 then
      ['\\', 'u', '0', '0', lowerHexDigit (c.toNat / 16), lowerHexDigit (c.toNat % 16)]
    else [c]

/-- A string as it is written. -/
def quote (s : String) : String :=
  String.ofList ('"' :: s.toList.flatMap quoteChar ++ ['"'])

end FilterQuery.Json
