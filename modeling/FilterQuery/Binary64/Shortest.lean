import FilterQuery.Binary64

/-!
# Binary64/Shortest — the fewest digits that read back

A finite double owns the interval of reals that round to it, with its ends if the mantissa is even.
For 1, 2, … 17 digits the value has two neighbours among the decimals of that many digits; the first
number of digits with a neighbour inside of the interval wins, the nearer one if both are, and the
upper one at a tie.
-/

namespace FilterQuery.Binary64

/-- The number `digits * 10 ^ exponent`. -/
structure Digits where
  digits : Nat
  exponent : Int
  deriving DecidableEq, Inhabited

/-- Comparing `c * 10 ^ q` ones with `n` quarters of a unit: both sides made whole. -/
def scaleSides (c : Nat) (q : Int) (n : Nat) : Nat × Nat :=
  (c * Nat.pow 10 q.toNat * (4 * unitsPerOne), n * Nat.pow 10 (-q).toNat)

/-- The quarters of a unit from which and up to which reals round to a double. -/
def interval (mantissa shift : Nat) : Nat × Nat :=
  let ulp := 1 <<< shift
  let below := if mantissa = leadingBit ∧ 0 < shift then ulp else 2 * ulp
  (4 * mantissa * ulp - below, 4 * mantissa * ulp + 2 * ulp)

/-- Whether `c * 10 ^ q` rounds to a double. -/
def readsBack (mantissa shift c : Nat) (q : Int) : Bool :=
  let (low, high) := interval mantissa shift
  let lower := scaleSides c q low
  let upper := scaleSides c q high
  if mantissa % 2 = 0 then lower.2 ≤ lower.1 && upper.1 ≤ upper.2
  else lower.2 < lower.1 && upper.1 < upper.2

/-- The largest `k` with `10 ^ k` at most the double, which is not zero. -/
def magnitude (mantissa shift : Nat) : Int :=
  let scaled := (mantissa <<< shift) * Nat.pow 10 324 / unitsPerOne
  ((Nat.toDigits 10 scaled).length : Int) - 325

/-- The neighbour of a double with `n` digits that reads back, the nearer one if both do. -/
def neighbour? (mantissa shift n : Nat) : Option Digits :=
  let q := magnitude mantissa shift - n + 1
  let units := mantissa <<< shift
  let c := units * Nat.pow 10 (-q).toNat / (unitsPerOne * Nat.pow 10 q.toNat)
  let down := readsBack mantissa shift c q
  let up := readsBack mantissa shift (c + 1) q
  let middle := scaleSides (2 * c + 1) q (8 * units)
  if up && (!down || middle.1 ≤ middle.2) then some ⟨c + 1, q⟩
  else if down then some ⟨c, q⟩
  else none

/-- Strips zeros at the end of the digits. -/
def Digits.strip (d : Digits) : Digits :=
  if 0 < d.digits ∧ d.digits % 10 = 0 then strip ⟨d.digits / 10, d.exponent + 1⟩ else d
termination_by d.digits
decreasing_by
  show d.digits / 10 < d.digits
  omega

/-- The fewest digits that read back as a double. -/
def shortest (mantissa shift : Nat) : Digits :=
  if mantissa = 0 then ⟨0, 0⟩
  else (((List.range 17).findSome? fun n => neighbour? mantissa shift (n + 1)).getD ⟨0, 0⟩).strip

end FilterQuery.Binary64
