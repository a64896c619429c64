import FilterQuery.Binary64.Shortest
import FilterQuery.Text.Visible
import FilterQuery.Value
import FilterQuery.World

/-!
# Value/Inspect — texts that show what a value is

The type of a value is spelled out before its content. Floats have the fewest digits that read back;
`floatFormat` says how they are laid out.
-/

namespace FilterQuery

/-- How the digits of a float are laid out: in positional notation for the powers of ten from
`minPower` to `maxPower`, and with an exponent otherwise. -/
structure FloatFormat where
  minPower : Int
  maxPower : Int
  exponentMark : String
  nan : String
  infinity : String

/-- Sixteen digits before the point and four zeros after it at most; a whole number keeps a point
and a zero. -/
def floatFormat : FloatFormat :=
  ⟨-4, 15, "e", "NaN", "inf"⟩

namespace FloatFormat

/-- Digits with a point after the first `point` of them, which may be none or more than there are. -/
def positional (digits : List Char) (point : Int) : String :=
  let before := digits.take point.toNat ++ List.replicate (point.toNat - digits.length) '0'
  let after := List.replicate (-point).toNat '0' ++ digits.drop point.toNat
  String.ofList ((if before.isEmpty then ['0'] else before) ++ '.' ::
    (if after.isEmpty then ['0'] else after))

/-- Digits with a point after the first, and the power of ten of that one. -/
def scientific (f : FloatFormat) (digits : List Char) (power : Int) : String :=
  let fraction := if digits.length ≤ 1 then [] else '.' :: digits.drop 1
  String.ofList (digits.take 1 ++ fraction) ++ f.exponentMark ++ toString power

/-- The text of a finite number without its sign. -/
def magnitude (f : FloatFormat) (d : Binary64.Digits) : String :=
  let digits := Nat.toDigits 10 d.digits
  let power := d.exponent + digits.length - 1
  if d.digits = 0 ∨ f.minPower ≤ power ∧ power ≤ f.maxPower then positional digits (power + 1)
  else f.scientific digits power

/-- The text of a double. -/
def render (f : FloatFormat) : Binary64 → String
  | .nan => f.nan
  | .infinite negative => (if negative then "-" else "") ++ f.infinity
  | .finite negative mantissa shift =>
    (if negative then "-" else "") ++ f.magnitude (Binary64.shortest mantissa shift)

end FloatFormat

namespace Value

/-- A character as it is shown in a string: the common ones of those that cannot be seen have a
letter, the others their number. -/
def inspectChar (c : Char) : List Char :=
  match [('"', '"'), ('\\', '\\'), ('\n', 'n'), ('\r', 'r'), ('\t', 't'), ('\x00', '0')].lookup c with
  | some d => ['\\', d]
  | none =>
    if Text.isVisible c then [c]
    else ['\\', 'u', '\x7b'] ++ Nat.toDigits 16 c.toNat ++ ['\x7d']

/-- A string in quotes. -/
def inspectString (s : String) : String :=
  String.ofList ('"' :: s.toList.flatMap inspectChar ++ ['"'])

/-- `text` in parentheses after a name. -/
def tagged (name text : String) : String :=
  name ++ "(" ++ text ++ ")"

mutual

/-- The text that shows a value. -/
def inspect : Value → String
  | null => "Null"
  | bool b => tagged "Boolean" (if b then "true" else "false")
  | int n => tagged "Integer" (toString n.toInt)
  | float x => tagged "Float" (floatFormat.render (Binary64.ofFloat x))
  | str s => tagged "String" (inspectString s)
  | array items => tagged "Array" ("[" ++ ", ".intercalate (inspectAll items) ++ "]")
  | object fields =>
    tagged "Object" ("\x7b" ++ ", ".intercalate (inspectFields fields) ++ "\x7d")
  | capability _ => tagged "Capability" (tagged "Capability" "..")
  | host _ => tagged "Host" (tagged "Host" "..")

/-- The texts of items. -/
def inspectAll : List Value → List String
  | [] => []
  | v :: vs => v.inspect :: inspectAll vs

/-- The texts of fields. -/
def inspectFields {keys : List String} : Table Value keys → List String
  | .nil => []
  | .cons key v fields _ => (inspectString key ++ ": " ++ v.inspect) :: inspectFields fields

end

end Value

/-- The text that shows the answer of a capability; a deferred one is not shown. -/
def Outcome.inspect {σ : Type} : Outcome σ → String
  | immediate v => Value.tagged "Immediate" v.inspect
  | deferred _ => Value.tagged "Deferred" ".."

end FilterQuery
