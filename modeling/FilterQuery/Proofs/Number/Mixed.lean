import FilterQuery.Proofs.Number.Decimal
import FilterQuery.Value.Order

/-!
# Proofs/Number/Mixed — an integer beside a float

An integer is compared with the decimal form of a float, so the comparison is as good as that form
(`Decimal.ofBinary64?_finite`): it is the order of the numbers, except that a fraction too near the
integer counts as equal to it (`int_float_order`).  Through such fractions equality is not
transitive, and a decimal would have room for some of them (`int_equals_justAbove`).
-/

namespace FilterQuery

/-! ## Numbers -/

namespace Binary64

/-- The number that a finite double stands for. -/
def toRat (negative : Bool) (mantissa shift : ℕ) : ℚ :=
  units negative mantissa shift / unitsPerOne

/-- The number that a double stands for, if it is finite. -/
def toRat? : Binary64 → Option ℚ
  | finite negative mantissa shift => some (toRat negative mantissa shift)
  | _ => none

/-- The order of an integer and a double as numbers. -/
def exactCompareInt? (n : ℤ) : Binary64 → Option Ordering
  | nan => none
  | infinite negative => some (if negative then .gt else .lt)
  | finite negative mantissa shift => some (compare (n : ℚ) (toRat negative mantissa shift))

theorem toRat_true (mantissa shift : ℕ) :
    toRat true mantissa shift = -toRat false mantissa shift := by
  simp [toRat, units, signed, neg_div]

theorem toRat_false (mantissa shift : ℕ) :
    toRat false mantissa shift = mantissa * 2 ^ shift / 2 ^ 1074 := by
  simp only [toRat, units, signed, unitsPerOne, Nat.shiftLeft_eq, one_mul, Bool.false_eq_true,
    if_false, Nat.cast_mul, Nat.cast_pow, Nat.cast_ofNat, Int.cast_mul, Int.cast_pow,
    Int.cast_ofNat, Int.cast_natCast]

/-- A double with a shift below one is a fraction of a power of two. -/
theorem toRat_of_fraction {shift k : ℕ} (h : shift + k = 1074) (mantissa : ℕ) :
    toRat false mantissa shift = mantissa / 2 ^ k := by
  rw [toRat_false, ← h, pow_add]
  field_simp

/-- Any other double is whole. -/
theorem toRat_of_whole (mantissa k : ℕ) :
    toRat false mantissa (1074 + k) = (mantissa * 2 ^ k : ℕ) := by
  rw [toRat_false, pow_add]
  push_cast
  field_simp

end Binary64

namespace Decimal

open Binary64 (signed)

/-- The number that a decimal stands for. -/
def toRat (d : Decimal) : ℚ :=
  signed d.negative d.coefficient / 10 ^ d.scale

theorem toRat_mk_false (c s : ℕ) : toRat ⟨false, c, s⟩ = fraction (c, s) := by
  simp [toRat, signed, fraction]

theorem toRat_mk_true (c s : ℕ) : toRat ⟨true, c, s⟩ = -fraction (c, s) := by
  simp [toRat, signed, fraction, neg_div]

/-- The order of an integer and a decimal is that of the numbers. -/
theorem compareInt_eq (n : ℤ) (d : Decimal) : d.compareInt n = compare (n : ℚ) d.toRat := by
  have hten : (0 : ℚ) < 10 ^ d.scale := by positivity
  have hcast : ((n * 10 ^ d.scale : ℤ) : ℚ) = n * 10 ^ d.scale := by
    push_cast
    rfl
  rw [compareInt, toRat]
  generalize signed d.negative d.coefficient = c
  calc compare (n * 10 ^ d.scale) c
      = cmp (n * 10 ^ d.scale) c := (cmp_eq_compare _ _).symm
    _ = cmp ((n * 10 ^ d.scale : ℤ) : ℚ) c := (Int.cast_strictMono.cmp_map_eq _ _).symm
    _ = cmp ((n : ℚ) * 10 ^ d.scale) (c / 10 ^ d.scale * 10 ^ d.scale) := by
      rw [div_mul_cancel₀ _ hten.ne', hcast]
    _ = cmp (n : ℚ) (c / 10 ^ d.scale) := cmp_mul_pos_right hten _ _
    _ = compare (n : ℚ) (c / 10 ^ d.scale) := cmp_eq_compare _ _

/-! ## The decimal form of a double -/

/-- A whole double is doubled up to its value while that fits a coefficient. -/
theorem divideFives_self (k m : ℕ) : divideFives k m k = some (m * 2 ^ k, 0) ∨
    divideFives k m k = none ∧ 2 ^ 95 ≤ m * 2 ^ k := by
  induction k generalizing m with
  | zero => exact Or.inl (by simp [divideFives])
  | succ k ih =>
    have hdouble : m * 2 ^ (k + 1) = 2 * m * 2 ^ k := by ring
    have hbound : coefficientBound / 2 = 2 ^ 95 := by decide
    rw [divideFives, hdouble, hbound]
    split
    · exact ih (2 * m)
    · next hm =>
      have hmany : k + 1 < 2 * (k + 1) := by omega
      rw [if_pos hmany]
      have hpow : 1 ≤ 2 ^ k := Nat.one_le_two_pow
      exact Or.inr ⟨rfl, by nlinarith⟩

/-- The decimal form of a number of either sign, from that of its magnitude. -/
theorem near_signed {mantissa shift c s : ℕ}
    (hside : SameSide (Binary64.toRat false mantissa shift) (fraction (c, s)))
    (hnear : Near (Binary64.toRat false mantissa shift) (fraction (c, s))) (negative : Bool) :
    SameSide (Binary64.toRat negative mantissa shift) (toRat ⟨negative, c, s⟩) ∧
      Near (Binary64.toRat negative mantissa shift) (toRat ⟨negative, c, s⟩) := by
  cases negative with
  | false =>
    rw [toRat_mk_false]
    exact ⟨hside, hnear⟩
  | true =>
    rw [toRat_mk_true, Binary64.toRat_true]
    exact ⟨hside.neg, hnear.neg⟩

/-- **The decimal form of a finite double** is near it and past no whole number; a double without
one is beyond every integer. -/
theorem ofBinary64?_finite (negative : Bool) (mantissa shift : ℕ) :
    (∃ d, ofBinary64? (.finite negative mantissa shift) = some d ∧
      SameSide (Binary64.toRat negative mantissa shift) d.toRat ∧
      Near (Binary64.toRat negative mantissa shift) d.toRat) ∨
    ofBinary64? (.finite negative mantissa shift) = none ∧
      (2 ^ 95 : ℚ) ≤ Binary64.toRat false mantissa shift := by
  rw [ofBinary64?]
  by_cases hzero : mantissa = 0
  · rw [if_pos hzero]
    have hvalue : Binary64.toRat negative mantissa shift = toRat ⟨false, 0, 0⟩ := by
      simp [Binary64.toRat, Binary64.units, toRat, signed, hzero]
    rw [hvalue]
    exact Or.inl ⟨_, rfl, .refl _, .refl _⟩
  · rw [if_neg hzero]
    by_cases hshift : shift < 1074
    · rw [if_pos hshift]
      have hvalue := Binary64.toRat_of_fraction (Nat.add_sub_of_le hshift.le) mantissa
      obtain ⟨hside, hnear⟩ := near_ofPowers (Nat.sub_le 1074 shift) mantissa
      rw [← hvalue] at hside hnear
      exact Or.inl ⟨_, rfl, near_signed hside hnear negative⟩
    · obtain ⟨k, rfl⟩ := Nat.exists_eq_add_of_le (not_lt.1 hshift)
      rw [if_neg hshift, Nat.add_sub_cancel_left, Binary64.toRat_of_whole]
      rcases divideFives_self k mantissa with hfits | ⟨hfits, hlarge⟩
      · have hvalue :
            Binary64.toRat false mantissa (1074 + k) = fraction (mantissa * 2 ^ k, 0) := by
          rw [Binary64.toRat_of_whole, fraction, pow_zero, div_one]
        rw [hfits]
        exact Or.inl ⟨_, rfl, near_signed (hvalue ▸ .refl _) (hvalue ▸ .refl _) negative⟩
      · rw [hfits]
        exact Or.inr ⟨rfl, by exact_mod_cast hlarge⟩

end Decimal

/-! ## The comparison -/

namespace Decimal

/-- A number that stays on its side of the whole numbers keeps its order with them, or comes to
equal one that it was near. -/
theorem compare_of_near {x y : ℚ} (hside : SameSide x y) (hnear : Near x y) (n : ℤ) :
    compare (n : ℚ) y = compare (n : ℚ) x ∨
      compare (n : ℚ) y = .eq ∧ (∀ k : ℤ, x ≠ k) ∧ Near x n := by
  obtain ⟨hle, hge⟩ := hside n
  by_cases heq : (n : ℚ) = y
  · by_cases hwhole : ∃ k : ℤ, x = k
    · obtain ⟨k, hk⟩ := hwhole
      rw [hside.eq_of_intCast hk, hk]
      exact Or.inl rfl
    · exact Or.inr ⟨compare_eq_iff_eq.2 heq, not_exists.1 hwhole, heq ▸ hnear⟩
  · left
    rcases lt_trichotomy (n : ℚ) x with h | h | h
    · rw [compare_lt_iff_lt.2 h, compare_lt_iff_lt.2 (lt_of_le_of_ne (hle h.le) heq)]
    · exact absurd (hside.eq_of_intCast h.symm).symm heq
    · rw [compare_gt_iff_gt.2 h, compare_gt_iff_gt.2 (lt_of_le_of_ne (hge h.le) (Ne.symm heq))]

end Decimal

namespace Binary64

theorem compareInt?_eq_none_iff (n : ℤ) (x : Binary64) : compareInt? n x = none ↔ x = .nan := by
  cases x with
  | nan => simp [compareInt?, Decimal.ofBinary64?]
  | infinite negative => simp [compareInt?, Decimal.ofBinary64?]
  | finite negative mantissa shift =>
    rw [compareInt?]
    cases Decimal.ofBinary64? (.finite negative mantissa shift) <;> simp

/-- Beside a double, an integer of 64 bits has its place among the numbers or equals a fraction
that is near. -/
theorem compareInt?_near {n : ℤ} (hn : |n| < 2 ^ 95) (x : Binary64) :
    compareInt? n x = exactCompareInt? n x ∨
      compareInt? n x = some .eq ∧
        ∃ a, x.toRat? = some a ∧ (∀ k : ℤ, a ≠ k) ∧ Decimal.Near a n := by
  cases x with
  | nan => exact Or.inl rfl
  | infinite negative => exact Or.inl rfl
  | finite negative mantissa shift =>
    rw [compareInt?, exactCompareInt?]
    rcases Decimal.ofBinary64?_finite negative mantissa shift with
      ⟨d, hd, hside, hnear⟩ | ⟨hd, hlarge⟩
    · rw [hd]
      simp only [Decimal.compareInt_eq, Option.some.injEq]
      rcases Decimal.compare_of_near hside hnear n with horder | ⟨hequal, hfraction, hnear⟩
      · exact Or.inl horder
      · exact Or.inr ⟨hequal, _, rfl, hfraction, hnear⟩
    · -- the sign alone decides, as the double is beyond every integer
      left
      have hn' : |(n : ℚ)| < 2 ^ 95 := by exact_mod_cast hn
      obtain ⟨hlow, hhigh⟩ := abs_lt.1 hn'
      rw [hd]
      cases negative with
      | false =>
        rw [compare_lt_iff_lt.2 (hhigh.trans_le hlarge)]
        rfl
      | true =>
        have hbelow : toRat true mantissa shift < n := by
          rw [toRat_true]
          linarith
        rw [compare_gt_iff_gt.2 hbelow]
        rfl

end Binary64

namespace Value

/-- Integers of 64 bits are far from where doubles have no decimal form. -/
theorem abs_toInt_lt (n : Int64) : |n.toInt| < 2 ^ 95 := by
  have hlow := n.le_toInt
  have hhigh := n.toInt_lt
  rw [abs_lt]
  omega

/-- **Integers and floats are ordered as the numbers they stand for,** from either side, with the
infinities outside and NaN unordered, and they are equal if neither is less.  Only a fraction that
agrees with the integer to fourteen digits, or to twenty-seven places, may count as equal to it. -/
theorem int_float_order (n : Int64) (x : Float) :
    ((int n).compare? (float x) = Binary64.exactCompareInt? n.toInt (Binary64.ofFloat x) ∨
      (int n).compare? (float x) = some .eq ∧ ∃ a, (Binary64.ofFloat x).toRat? = some a ∧
        (∀ k : ℤ, a ≠ k) ∧ Decimal.Near a n.toInt) ∧
    ((int n).compare? (float x) = none ↔ Binary64.ofFloat x = .nan) ∧
    (float x).compare? (int n) = ((int n).compare? (float x)).map Ordering.swap ∧
    ((int n).looseEq (float x) = true ↔ (int n).compare? (float x) = some .eq) ∧
    ((float x).looseEq (int n) = true ↔ (int n).compare? (float x) = some .eq) := by
  have horder : (int n).compare? (float x) =
      Binary64.compareInt? n.toInt (Binary64.ofFloat x) := by rw [compare?]
  have hswap : (float x).compare? (int n) = ((int n).compare? (float x)).map Ordering.swap := by
    simp only [compare?]
  have hequal : (int n).looseEq (float x) = true ↔ (int n).compare? (float x) = some .eq := by
    simp [looseEq, equalBy, looseLeaf]
  have hequal' : (float x).looseEq (int n) = true ↔ (int n).compare? (float x) = some .eq := by
    simp [looseEq, equalBy, looseLeaf, hswap]
  refine ⟨?_, ?_, hswap, hequal, hequal'⟩ <;> rw [horder]
  · exact Binary64.compareInt?_near (abs_toInt_lt n) _
  · exact Binary64.compareInt?_eq_none_iff _ _

/-- The float `10 ^ 12`. -/
def trillion : Float :=
  Float.ofBits 0x426d1a94a2000000

/-- The float `10 ^ 12 + 2 ^ (-12)`. -/
def justAbove : Float :=
  Float.ofBits 0x426d1a94a2000002

/-- **The order is not exact,** even on a fraction that a decimal can hold: an integer equals the
float just above it, which is greater than the float that is the integer. -/
theorem int_equals_justAbove :
    (Binary64.ofFloat justAbove).toRat? =
      some (Decimal.toRat ⟨false, 1000000000000000244140625, 12⟩) ∧
    Binary64.exactCompareInt? 1000000000000 (Binary64.ofFloat justAbove) = some .lt ∧
    (int 1000000000000).compare? (float justAbove) = some .eq ∧
    (int 1000000000000).compare? (float trillion) = some .eq ∧
    (float justAbove).compare? (float trillion) = some .gt := by
  decide +kernel

end Value

end FilterQuery
