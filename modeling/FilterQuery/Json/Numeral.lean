import FilterQuery.Json.Error
import FilterQuery.Value

/-!
# Json/Numeral — numbers as they are written, and the values they stand for

A `Numeral` holds the digits of a number. Without fraction and exponent it is an integer as long as
its digits fit 64 bits; otherwise it is a float, whose digits are gathered into a 64-bit significand
and a power of ten and multiplied out in floating point, which is not always the nearest double.
-/

namespace FilterQuery.Json

/-- An exponent as it is written. -/
structure Exponent where
  negative : Bool
  digits : List Nat
  deriving DecidableEq, Inhabited

/-- A number as it is written; `fraction` is empty where none is written. -/
structure Numeral where
  negative : Bool
  integer : List Nat
  fraction : List Nat
  exponent : Option Exponent
  deriving DecidableEq, Inhabited

namespace Numeral

/-! ## Reading -/

/-- Takes the digits at the front. -/
def digits : Rule (List Nat) := do
  return (← Rule.takeWhile Char.isDigit).map fun c => c.toNat - '0'.toNat

/-- The next character if it is one of `cs`, which is then taken. -/
def acceptAny (cs : List Char) : Rule (Option Char) := do
  match ← Rule.peek with
  | none => return none
  | some c =>
    if c ∈ cs then
      Rule.skip
      return some c
    else return none

/-- The integer part, where a zero stands alone. -/
def integerPart : Rule (List Nat) := do
  match ← Rule.peek with
  | none => fail .endInValue 0
  | some c =>
    if c = '0' then
      Rule.skip
      match ← Rule.peek with
      | some d => if d.isDigit then fail .invalidNumber 1 else return [0]
      | none => return [0]
    else if c.isDigit then digits
    else fail .invalidNumber 1

/-- The fraction, if there is one. -/
def fractionPart : Rule (List Nat) := do
  match ← acceptAny ['.'] with
  | none => return []
  | some _ =>
    match ← digits with
    | [] =>
      match ← Rule.peek with
      | none => fail .endInValue 1
      | some _ => fail .invalidNumber 1
    | ds => return ds

/-- The exponent, if there is one. -/
def exponentPart : Rule (Option Exponent) := do
  match ← acceptAny ['e', 'E'] with
  | none => return none
  | some _ =>
    let sign ← acceptAny ['+', '-']
    match ← digits with
    | [] =>
      match ← Rule.peek with
      | none => fail .endInValue 0
      | some _ => fail .invalidNumber 1
    | ds => return some ⟨sign = some '-', ds⟩

/-- A number. -/
def rule : Rule Numeral := do
  let sign ← acceptAny ['-']
  let integer ← integerPart
  let fraction ← fractionPart
  let exponent ← exponentPart
  return ⟨sign.isSome, integer, fraction, exponent⟩

/-! ## Meaning -/

/-- The largest number that `absorb` lets the significand be. -/
def significandLimit : Nat := 1 <<< 64 - 1

/-- The largest exponent that is told from an endless one. -/
def exponentLimit : Nat := 1 <<< 31 - 1

/-- Reads digits on after `n`, up to the first that would take it over `limit`: the number read, and
the digits not taken. -/
def absorb (limit : Nat) : Nat → List Nat → Nat × List Nat
  | n, [] => (n, [])
  | n, d :: ds => if 10 * n + d ≤ limit then absorb limit (10 * n + d) ds else (n, d :: ds)

/-- The nearest double to a significand. -/
def ofSignificand (n : Nat) : Float :=
  (UInt64.ofNat n).toFloat

/-- The nearest double to a power of ten. -/
def powerOfTen (k : Nat) : Float :=
  Float.ofScientific 1 false k

/-- The largest power of ten that is finite. -/
def maxPower : Nat := 308

/-- Divides by `10 ^ k`, in steps of the largest power until zero is reached. -/
def scaleDown (x : Float) (k : Nat) : Float :=
  if k ≤ maxPower then x / powerOfTen k
  else if x == 0 then x
  else scaleDown (x / powerOfTen maxPower) (k - maxPower)
termination_by k
decreasing_by simp only [maxPower] at *; omega

/-- Multiplies by `10 ^ e`, unless the result is out of range. -/
def scale? (x : Float) : Int → Option Float
  | .ofNat k =>
    if k ≤ maxPower then
      let y := x * powerOfTen k
      if y.isInf then none else some y
    else if x == 0 then some x
    else none
  | .negSucc k => some (scaleDown x (k + 1))

/-- The exponent in use: how far the written one goes over the limit, or the number it is. -/
def Exponent.value? (e : Exponent) : Except (List Nat) Int :=
  match absorb exponentLimit 0 e.digits with
  | (n, []) => .ok (if e.negative then -(n : Int) else n)
  | (_, _ :: rest) => .error rest

/-- The float with a given sign. -/
def withSign (negative : Bool) (x : Float) : Float :=
  if negative then -x else x

/-- The value of an integer that fits 64 bits. Beyond the range of `int`, and at minus zero, it is a
float. -/
def integerValue (negative : Bool) (n : Nat) : Value :=
  if negative then
    if n = 0 ∨ 1 <<< 63 < n then .float (-ofSignificand n) else .int (Int64.ofInt (-(n : Int)))
  else if n < 1 <<< 63 then .int (Int64.ofNat n)
  else .float (ofSignificand n)

/-- The value of a numeral, or the number of its last characters that are not read because it is
already known to be out of range. -/
def value? (numeral : Numeral) : Except Nat Value := do
  let (whole, dropped) := absorb significandLimit 0 numeral.integer
  if dropped.isEmpty && numeral.fraction.isEmpty && numeral.exponent.isNone then
    return integerValue numeral.negative whole
  let (significand, cut) := absorb significandLimit whole numeral.fraction
  let taken := numeral.fraction.length - cut.length
  let shift : Int := dropped.length - taken
  let magnitude ← match numeral.exponent with
    | none => (scale? (ofSignificand significand) shift).elim (throw 0) pure
    | some e =>
      match Exponent.value? e with
      | .ok n => (scale? (ofSignificand significand) (shift + n)).elim (throw 0) pure
      | .error unread => if significand = 0 ∨ e.negative then pure 0 else throw unread.length
  return .float (withSign numeral.negative magnitude)

/-- Reads a number and its value. -/
def valueRule : Rule Value := do
  match (← rule).value? with
  | .ok v => return v
  | .error unread => do
    throw ⟨.numberOutOfRange, Text.byteLength (← Rule.rest) + unread⟩

end Numeral

end FilterQuery.Json
