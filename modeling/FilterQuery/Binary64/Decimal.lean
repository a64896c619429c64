import FilterQuery.Binary64

/-!
# Binary64/Decimal — a double as a decimal of limited precision

A `Decimal` holds a 96-bit coefficient and up to 28 decimal places. A double is turned into one by
trading its powers of two for powers of ten, and what does not fit is rounded away: coefficients
with a fraction are cut to less than `2 ^ 52`, about fifteen digits. Doubles beyond the range of the
coefficient have no decimal form.
-/

namespace FilterQuery

/-- The number `± coefficient / 10 ^ scale`. -/
structure Decimal where
  negative : Bool
  coefficient : Nat
  scale : Nat
  deriving DecidableEq, Inhabited

namespace Decimal

/-- Coefficients are below this. -/
def coefficientBound : Nat := 1 <<< 96

/-- The largest number of decimal places. -/
def maxScale : Nat := 28

/-- A coefficient with a fraction is cut until it is below this. -/
def precisionBound : Nat := 1 <<< 52

/-- A quotient by ten, rounded half up. -/
def roundTen (m : Nat) : Nat :=
  m / 10 + if m % 10 < 5 then 0 else 1

/-- Multiplies out the fives of `m * 5 ^ k / 10 ^ scale`. An even `m` cancels a five and its own two
against a ten; an odd one takes the five in while that fits, and loses its last bit otherwise. -/
def multiplyFives : (k : Nat) → (m scale : Nat) → Nat × Nat
  | 0, m, scale => (m, scale)
  | k + 1, m, scale =>
    if m % 2 = 0 then multiplyFives k (m / 2) (scale - 1)
    else if 5 * m < coefficientBound then multiplyFives k (5 * m) scale
    else multiplyFives k (m / 2) (scale - 1)

/-- Divides out the fives of `m * 10 ^ e / 5 ^ k`. A ten cancels a five and leaves a two while that
fits; after that `m` itself is divided, unless too many tens are left over. -/
def divideFives : (k : Nat) → (m e : Nat) → Option (Nat × Nat)
  | 0, m, e => some (m, e)
  | k + 1, m, e =>
    if m < coefficientBound / 2 then divideFives k (2 * m) (e - 1)
    else if k + 1 < 2 * e then none
    else divideFives k (m / 5) e

/-- Multiplies by `10 ^ e` if the product fits a coefficient. -/
def scaleUp : (e m : Nat) → Option Nat
  | 0, m => some m
  | e + 1, m => if 10 * m < coefficientBound then scaleUp e (10 * m) else none

/-- Drops `k` decimal places, rounding half up at each; a coefficient that runs out is zero. -/
def dropPlaces : (k : Nat) → (m scale : Nat) → Nat × Nat
  | 0, m, scale => (m, scale)
  | k + 1, m, scale =>
    if m / 10 = 0 then (0, 0) else dropPlaces k (roundTen m) (scale - 1)

/-- Drops decimal places until the coefficient is within the precision. -/
def dropExcess : (m scale : Nat) → Nat × Nat
  | m, 0 => (m, 0)
  | m, scale + 1 => if precisionBound ≤ m then dropExcess (roundTen m) scale else (m, scale + 1)

/-- Strips zeros at the end of the fraction. -/
def stripZeros : (m scale : Nat) → Nat × Nat
  | m, 0 => (m, 0)
  | m, scale + 1 => if m % 10 = 0 then stripZeros (m / 10) scale else (m, scale + 1)

/-- The decimal form of a double, for those that have one. -/
def ofBinary64? : Binary64 → Option Decimal
  | .finite negative mantissa shift =>
    if mantissa = 0 then some ⟨false, 0, 0⟩
    else if shift < 1074 then
      let places := 1074 - shift
      let (m, scale) := multiplyFives places mantissa places
      let (m, scale) := dropPlaces (scale - maxScale) m scale
      let (m, scale) := dropExcess m scale
      let (m, scale) := stripZeros m scale
      some ⟨negative, m, scale⟩
    else do
      let (m, e) ← divideFives (shift - 1074) mantissa (shift - 1074)
      return ⟨negative, ← scaleUp e m, 0⟩
  | _ => none

/-- The order of an integer and a decimal. -/
def compareInt (n : Int) (d : Decimal) : Ordering :=
  compare (n * Nat.pow 10 d.scale) (Binary64.signed d.negative d.coefficient)

end Decimal

end FilterQuery
