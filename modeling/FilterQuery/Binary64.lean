/-!
# Binary64 — what the 64 bits of a float stand for

Every finite double is a whole multiple of the least positive one, `2 ^ (-1074)`, so a finite value
is a sign, a mantissa and a shift, and comparing two of them is comparing two integers (`units`).
-/

namespace FilterQuery

/-- A double taken apart. The finite ones stand for `± mantissa * 2 ^ (shift - 1074)`. -/
inductive Binary64 where
  | nan
  | infinite (negative : Bool)
  | finite (negative : Bool) (mantissa shift : Nat)
  deriving DecidableEq, Inhabited

namespace Binary64

/-- The leading bit of a mantissa, which is understood in all doubles but the least ones. -/
def leadingBit : Nat := 1 <<< 52

/-- Reads sign, exponent and fraction off the bits. -/
def ofBits (bits : Nat) : Binary64 :=
  let negative := bits.testBit 63
  let exponent := (bits >>> 52) % 2048
  let fraction := bits % leadingBit
  if exponent = 2047 then
    if fraction = 0 then .infinite negative else .nan
  else if exponent = 0 then .finite negative fraction 0
  else .finite negative (leadingBit + fraction) (exponent - 1)

/-- The parts of a float. -/
def ofFloat (x : Float) : Binary64 :=
  ofBits x.toBits.toNat

/-- `n` with a sign. -/
def signed (negative : Bool) (n : Nat) : Int :=
  if negative then -(n : Int) else n

/-- The number of units `2 ^ (-1074)` in a finite double. -/
def units (negative : Bool) (mantissa shift : Nat) : Int :=
  signed negative (mantissa <<< shift)

/-- How many units make one. -/
def unitsPerOne : Nat := 1 <<< 1074

/-- Places the doubles other than NaN in order: the infinities outside, the finite ones by their
units between them. -/
def rank : Binary64 → Option (Int × Int)
  | nan => none
  | infinite negative => some (signed negative 1, 0)
  | finite negative mantissa shift => some (0, units negative mantissa shift)

/-- The numerical order. NaN is not comparable with anything, and the two zeros are equal. -/
def compare? (x y : Binary64) : Option Ordering :=
  match x.rank, y.rank with
  | some a, some b => some ((compare a.1 b.1).then (compare a.2 b.2))
  | _, _ => none

/-- Whether the double is zero, of either sign. -/
def isZero : Binary64 → Bool
  | finite _ mantissa _ => mantissa == 0
  | _ => false

/-- The integer that the double stands for, if it stands for one. -/
def toInt? : Binary64 → Option Int
  | finite negative mantissa shift =>
    let n := units negative mantissa shift
    if n % unitsPerOne = 0 then some (n / unitsPerOne) else none
  | _ => none

theorem compare?_swap (x y : Binary64) : y.compare? x = (x.compare? y).map Ordering.swap := by
  unfold compare?
  cases x.rank <;> cases y.rank <;> simp [Ordering.swap_then, Int.compare_swap]

theorem compare?_eq_none_iff (x y : Binary64) : x.compare? y = none ↔ x = .nan ∨ y = .nan := by
  cases x <;> cases y <;> simp [compare?, rank]

end Binary64

end FilterQuery
