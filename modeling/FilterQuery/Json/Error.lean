import FilterQuery.Consumer
import FilterQuery.Text.Offset

/-!
# Json/Error — why and where a text is not JSON

A rule that fails knows how much of the text it has left, not how much it has read: a `Fault` counts
the bytes after the failure. The location follows once the whole text is at hand.
-/

namespace FilterQuery.Json

/-- The ways in which a text can fail to be JSON. -/
inductive Cause where
  | endInValue
  | endInString
  | endInArray
  | endInObject
  | expectedValue
  | expectedWord
  | expectedColon
  | expectedCommaOrBracket
  | expectedCommaOrBrace
  | invalidNumber
  | numberOutOfRange
  | invalidEscape
  | loneSurrogate
  | unpairedSurrogate
  | controlCharacter
  | keyNotString
  | trailingCharacters
  | trailingComma
  | tooDeep
  deriving DecidableEq, Inhabited

/-- The wording of a cause. -/
def Cause.message : Cause → String
  | endInValue => "EOF while parsing a value"
  | endInString => "EOF while parsing a string"
  | endInArray => "EOF while parsing a list"
  | endInObject => "EOF while parsing an object"
  | expectedValue => "expected value"
  | expectedWord => "expected ident"
  | expectedColon => "expected \x60:\x60"
  | expectedCommaOrBracket => "expected \x60,\x60 or \x60]\x60"
  | expectedCommaOrBrace => "expected \x60,\x60 or \x60\x7d\x60"
  | invalidNumber => "invalid number"
  | numberOutOfRange => "number out of range"
  | invalidEscape => "invalid escape"
  | loneSurrogate => "lone leading surrogate in hex escape"
  | unpairedSurrogate => "unexpected end of hex escape"
  | controlCharacter => "control character (\\u0000-\\u001F) found while parsing a string"
  | keyNotString => "key must be a string"
  | trailingCharacters => "trailing characters"
  | trailingComma => "trailing comma"
  | tooDeep => "recursion limit exceeded"

/-- A failure with `left` bytes of the text after it. -/
structure Fault where
  cause : Cause
  left : Nat
  deriving DecidableEq, Inhabited

/-- A failure at a line and a byte of it. -/
structure Error where
  cause : Cause
  location : Text.Location
  deriving DecidableEq, Inhabited

/-- The message of an error. -/
def Error.message (e : Error) : String :=
  e.cause.message ++ " at line " ++ toString e.location.line ++
    " column " ++ toString e.location.column

/-- The error that a fault is in the text it was found in. -/
def Fault.toError (text : List Char) (f : Fault) : Error :=
  ⟨f.cause, Text.locate text (Text.byteLength text - f.left)⟩

/-- Rules on the characters of a JSON text. -/
abbrev Rule := FilterQuery.Rule Char Fault

/-- Fails `ahead` bytes further on, or at the end of the text if there are fewer. -/
def fail {α : Type} (cause : Cause) (ahead : Nat) : Rule α := do
  throw ⟨cause, Text.byteLength (← Rule.rest) - ahead⟩

end FilterQuery.Json
