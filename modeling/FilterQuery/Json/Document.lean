import FilterQuery.Json.Numeral
import FilterQuery.Json.Text

/-!
# Json/Document — JSON texts and the values they stand for

Of two entries of an object with one key the later counts. Arrays and objects nest up to a fixed
depth, so reading is by recursion on the depth that is left.
-/

namespace FilterQuery.Json

/-- White space between the parts of a JSON text. -/
def isSpace (c : Char) : Bool :=
  c = ' ' || c = '\n' || c = '\t' || c = '\r'

/-- Skips white space. -/
def spaces : Rule Unit :=
  Rule.skipWhile isSpace

/-- The characters of a word, one after the other. -/
def word : List Char → Rule Unit
  | [] => return ()
  | c :: cs => do
    match ← Rule.peek with
    | none => fail .endInValue 0
    | some d =>
      if d = c then
        Rule.skip
        word cs
      else fail .expectedWord 1

/-- An item of an array, and the white space around it. -/
def item (value : Rule Value) : Rule Value := do
  spaces
  match ← Rule.peek with
  | none => fail .endInValue 1
  | some ']' => fail .trailingComma 1
  | some _ =>
    let v ← value
    spaces
    return v

/-- The rest of an array after its opening bracket. -/
def arrayTail (value : Rule Value) : Rule Value := do
  spaces
  match ← Rule.peek with
  | none => fail .endInArray 1
  | some ']' =>
    Rule.skip
    return .array []
  | some _ =>
    let items ← Rule.list (· == ',') (item value)
    match ← Rule.peek with
    | none => fail .endInArray 1
    | some ']' =>
      Rule.skip
      return .array items
    | some _ => fail .expectedCommaOrBracket 1

/-- The colon after a key. -/
def colon : Rule Unit := do
  spaces
  match ← Rule.peek with
  | none => fail .endInObject 1
  | some ':' => Rule.skip
  | some _ => fail .expectedColon 1

/-- An entry of an object, and the white space around it. -/
def entry (value : Rule Value) : Rule (String × Value) := do
  spaces
  match ← Rule.peek with
  | none => fail .endInValue 1
  | some '\x7d' => fail .trailingComma 1
  | some '"' =>
    Rule.skip
    let key ← textTail
    colon
    let v ← value
    spaces
    return (String.ofList key, v)
  | some _ => fail .keyNotString 1

/-- The rest of an object after its opening brace. -/
def objectTail (value : Rule Value) : Rule Value := do
  spaces
  match ← Rule.peek with
  | none => fail .endInObject 1
  | some '\x7d' =>
    Rule.skip
    return .object .nil
  | some _ =>
    let entries ← Rule.list (· == ',') (entry value)
    match ← Rule.peek with
    | none => fail .endInObject 1
    | some '\x7d' =>
      Rule.skip
      return .ofPairs entries
    | some _ => fail .expectedCommaOrBrace 1

/-- A value whose parts, if it is an array or object, are read by `inner`; without `inner` there is
no depth left for parts. -/
def valueWith (inner : Option (Rule Value)) : Rule Value := do
  spaces
  match ← Rule.peek with
  | none => fail .endInValue 1
  | some c =>
    if c = 'n' then
      Rule.skip
      word ['u', 'l', 'l']
      return .null
    else if c = 't' then
      Rule.skip
      word ['r', 'u', 'e']
      return .bool true
    else if c = 'f' then
      Rule.skip
      word ['a', 'l', 's', 'e']
      return .bool false
    else if c = '-' ∨ c.isDigit then Numeral.valueRule
    else if c = '"' then
      Rule.skip
      return .str (String.ofList (← textTail))
    else if c = '[' ∨ c = '\x7b' then
      match inner with
      | none => fail .tooDeep 1
      | some value =>
        Rule.skip
        if c = '[' then arrayTail value else objectTail value
    else fail .expectedValue 1

/-- A value with `depth` levels of arrays and objects at most. -/
def value : (depth : Nat) → Rule Value
  | 0 => valueWith none
  | depth + 1 => valueWith (some (value depth))

/-- How deep arrays and objects may nest. -/
def maxDepth : Nat := 127

/-- A whole text: a value and white space around it. -/
def document : Rule Value := do
  let v ← value maxDepth
  spaces
  match ← Rule.peek with
  | none => return v
  | some _ => fail .trailingCharacters 1

/-- The value that a JSON text stands for. -/
def read (text : String) : Except Error Value :=
  (document.apply text.toList).1.mapError (Fault.toError text.toList)

end FilterQuery.Json
