import Mathlib
import FilterQuery.Json.Numeral
import FilterQuery.Proofs.Value.Data

/-!
# Proofs/Number/Float — the floats that numerals stand for are numbers

    ±0     ─┐                            ┌─▸ ±0
    finite ─┼─ × 10 ^ k,  ÷ 10 ^ k,  − ──┼─▸ finite
    ±∞     ─┘                            └─▸ ±∞

NaN comes of NaN, and of zeros and infinities that meet in a product or a quotient.  The powers of
ten that numerals are scaled by are neither (`isRegular_powerOfTen`), so **no numeral stands for
NaN** (`Numeral.isData_of_value?`).  This is read off the logical model of floats, where operands
are unpacked and the result is rounded and packed again.
-/

namespace FilterQuery

open Float.Model (Format UnpackedFloat totalExponent)
open Float.Model.UnpackedFloat

namespace Binary64

/-- Whether a float is neither zero nor infinite nor NaN. -/
def isRegular : UnpackedFloat → Bool
  | .finite .. => true
  | _ => false

/-! ## What the bits say -/

section Bits

variable {bits : BitVec Format.binary64.numBits}

/-- The bits of a double are no NaN unless the exponent is full and the mantissa is not zero. -/
theorem isNaN_unpack_eq_false_iff : (unpack .binary64 bits).isNaN = false ↔
    (unpackExponent bits = -1#11 → unpackMantissa bits = 0#52) := by
  rw [unpack]
  by_cases hall : unpackExponent bits = -1#11
  · rw [if_pos hall]
    by_cases hzero : unpackMantissa bits = 0#52 <;> simp [hall, hzero, isNaN]
  · rw [if_neg hall]
    refine iff_of_true ?_ fun h => absurd h hall
    split
    · split <;> rfl
    · rfl

/-- The bits of a double are those of a regular number if the exponent is not full and not both
exponent and mantissa are zero. -/
theorem isRegular_unpack_iff : isRegular (unpack .binary64 bits) = true ↔
    unpackExponent bits ≠ -1#11 ∧
      (unpackExponent bits = 0#11 → unpackMantissa bits ≠ 0#52) := by
  rw [unpack]
  by_cases hall : unpackExponent bits = -1#11
  · rw [if_pos hall]
    by_cases hzero : unpackMantissa bits = 0#52 <;> simp [hall, hzero, isRegular]
  · rw [if_neg hall]
    by_cases hnone : unpackExponent bits = 0#11
    · rw [if_pos hnone]
      by_cases hzero : unpackMantissa bits = 0#52 <;> simp [hnone, hzero, isRegular]
    · rw [if_neg hnone]
      exact iff_of_true rfl ⟨hall, fun h => absurd h hnone⟩

end Bits

/-- The parts of a float are those of NaN for NaN only. -/
theorem ofFloat_ne_nan {x : Float} (h : x.isNaN = false) : ofFloat x ≠ .nan := by
  have hbits := isNaN_unpack_eq_false_iff.1 h
  have hexponent : (@unpackExponent .binary64 x.toBits.toBitVec).toNat =
      (x.toBits.toNat >>> 52) % 2048 := by
    simp [unpackExponent]
  have hfraction : (@unpackMantissa .binary64 x.toBits.toBitVec).toNat =
      x.toBits.toNat % leadingBit := by
    simp [unpackMantissa, leadingBit]
  rw [ofFloat, ofBits, ← hexponent, ← hfraction]
  split
  · next hall =>
    have hzero : @unpackMantissa .binary64 x.toBits.toBitVec = 0#52 :=
      hbits (BitVec.eq_of_toNat_eq hall)
    rw [hzero]
    simp
  · split <;> simp

/-! ## Packing -/

/-- **Nothing but NaN is packed as NaN.** -/
theorem isNaN_pack {u : UnpackedFloat} (h : u.isNaN = false) :
    (Float.Model.pack u).isNaN = false := by
  refine isNaN_unpack_eq_false_iff.2 ?_
  change unpackExponent (pack .binary64 u) = _ → unpackMantissa (pack .binary64 u) = _
  fun_cases pack with
  | case1 => cases h
  | case2 s => simp [packedInfinity]
  | case3 s => simp [packedZero]
  | case4 s m e hm biasedExponent hbig => simp [packedInfinity]
  | case5 s m e hm bitLength biasedExponent hbig hnormal =>
    -- the exponent of a normal float has a zero among its bits
    rw [unpackExponent_packComponents]
    intro hall
    have hmod : biasedExponent % 2048 = 2047 := congrArg BitVec.toNat hall
    have hlt : ¬ 2048 ≤ biasedExponent + 1 := hbig
    omega
  | case6 s m e hm bitLength biasedExponent hbig hnormal => simp

/-- **A regular float whose exponent fits stays regular when it is packed.** -/
theorem isRegular_unpack_pack {m : Nat} {e : Int} (hm : 0 < m) (hlt : m < 2 ^ 53)
    (hle : -1074 ≤ e) (hge : e ≤ 971) (s : Sign) :
    isRegular (unpack .binary64 (pack .binary64 (.finite s m e hm))) = true := by
  have hbias : e + Format.binary64.exponentBias + Format.binary64.mantissaBitsWithoutImplicit =
      e + 1075 := by
    change e + (1023 : Nat) + (52 : Nat) = _
    omega
  have hbig : ¬ 2 ^ Format.binary64.exponentBits ≤ (e + 1075).toNat + 1 := by
    change ¬ 2048 ≤ (e + 1075).toNat + 1
    omega
  rw [isRegular_unpack_iff, pack, hbias]
  dsimp only
  rw [if_neg hbig]
  split
  · rw [unpackExponent_packComponents]
    constructor
    · intro hall
      have hmod : (e + 1075).toNat % 2048 = 2047 := congrArg BitVec.toNat hall
      omega
    · intro hnone
      have hmod : (e + 1075).toNat % 2048 = 0 := congrArg BitVec.toNat hnone
      omega
  · next hsubnormal =>
    rw [unpackExponent_packComponents, unpackMantissa_packComponents]
    refine ⟨by decide, fun _ hzero => ?_⟩
    have hmod : m % 2 ^ 52 = 0 := congrArg BitVec.toNat hzero
    have hlog : m.log2 < 53 := (Nat.log2_lt (by omega)).2 hlt
    have hlog' : m.log2 < 52 := by
      change ¬ m.log2 + 1 = 53 at hsubnormal
      omega
    have hsmall := (Nat.log2_lt (by omega)).1 hlog'
    omega

/-! ## Rounding -/

/-- Rounding a mantissa never makes a NaN. -/
theorem isNaN_roundWithAccuracy (format : Format) (s : Sign) (m : Nat) (e : Int) (a : Accuracy) :
    (roundWithAccuracy format s m e a).isNaN = false := by
  rw [roundWithAccuracy]
  dsimp only
  split <;> rfl

/-- Normalising a mantissa never makes a NaN. -/
theorem isNaN_normalize (format : Format) (m e : Int) (s : Sign) :
    (normalize format m e s).isNaN = false := by
  rw [UnpackedFloat.normalize]
  split
  · exact isNaN_roundWithAccuracy _ _ _ _ _
  · rfl
  · exact isNaN_roundWithAccuracy _ _ _ _ _

/-- A shift to the right shifts the mantissa, and the accuracy only remembers what fell out. -/
theorem mantissa_shiftRight (em : ExtendedMantissa) (n : Nat) :
    (em >>> n).mantissa = em.mantissa >>> n := by
  induction n with
  | zero => rfl
  | succ n ih =>
    change (em >>> n).mantissa / 2 = _
    rw [ih, Nat.shiftRight_succ]

/-- An extended mantissa is its mantissa and its accuracy. -/
theorem mantissa_ofMantissaAndAccuracy (m : Nat) (a : Accuracy) :
    (ExtendedMantissa.ofMantissaAndAccuracy m a).mantissa = m := by
  cases a with
  | exact => rfl
  | inexact o => cases o <;> rfl

/-- Rounding to even goes up by one at most and never down. -/
theorem roundToNearestEven_bounds (m : Nat) (a : Accuracy) :
    m ≤ a.roundToNearestEven m ∧ a.roundToNearestEven m ≤ m + 1 := by
  cases a with
  | exact => exact ⟨Nat.le_refl m, Nat.le_succ m⟩
  | inexact o =>
    cases o with
    | lt => exact ⟨Nat.le_refl m, Nat.le_succ m⟩
    | eq =>
      change m ≤ m + m % 2 ∧ m + m % 2 ≤ m + 1
      omega
    | gt => exact ⟨Nat.le_succ m, Nat.le_refl _⟩

/-- Dropping all bits but the highest 53 leaves a number of at most 53 bits that is not zero. -/
theorem shiftRight_bounds {m : Nat} (hm : m ≠ 0) :
    0 < m >>> (m.log2 - 52) ∧ m >>> (m.log2 - 52) < 2 ^ 53 := by
  have hle := Nat.log2_self_le hm
  have hlt : m < 2 ^ (m.log2 + 1) := Nat.lt_log2_self
  rw [Nat.shiftRight_eq_div_pow]
  constructor
  · refine Nat.div_pos (Nat.le_trans (Nat.pow_le_pow_right Nat.two_pos ?_) hle) (Nat.two_pow_pos _)
    exact Nat.sub_le _ _
  · rw [Nat.div_lt_iff_lt_mul (Nat.two_pow_pos _), ← Nat.pow_add]
    refine Nat.lt_of_lt_of_le hlt (Nat.pow_le_pow_right Nat.two_pos ?_)
    omega

/-- **After the shift to the target exponent** the mantissa is at least one and fits 53 bits. -/
theorem shiftToTargetExponent_bounds {m : Nat} (hm : m ≠ 0) {e e' : Int} (he : -1074 ≤ e)
    {a : Accuracy} {em : ExtendedMantissa}
    (h : shiftToTargetExponent .binary64 m e a = (em, e')) :
    0 < em.mantissa ∧ em.mantissa < 2 ^ 53 ∧ e' = max e (m.log2 + e - 52) := by
  obtain ⟨rfl, rfl⟩ := Prod.mk.inj h
  have hshift : (Format.binary64.targetExponent (totalExponent m e) - e).toNat = m.log2 - 52 := by
    change (max ((m.log2 : Int) + 1 + e - 53) (-1074) - e).toNat = _
    omega
  rw [hshift, mantissa_shiftRight, mantissa_ofMantissaAndAccuracy]
  obtain ⟨hpos, hlt⟩ := shiftRight_bounds hm
  exact ⟨hpos, hlt, by omega⟩

/-- **A number below `2 ^ 1023` is rounded to a regular float,** if its exponent is not positive. -/
theorem isRegular_round {m : Nat} (hm : m ≠ 0) {e : Int} (hle : -1074 ≤ e) (hge : e ≤ 0)
    (hlog : m.log2 + e < 1023) (s : Sign) (a : Accuracy) :
    isRegular (Float.Model.pack (roundWithAccuracy .binary64 s m e a)).unpack = true := by
  rw [roundWithAccuracy]
  rcases hfirst : shiftToTargetExponent .binary64 m e a with ⟨em, e₁⟩
  obtain ⟨hpos, hlt, rfl⟩ := shiftToTargetExponent_bounds hm hle hfirst
  obtain ⟨hdown, hup⟩ : em.mantissa ≤ em.roundedMantissa ∧ em.roundedMantissa ≤ em.mantissa + 1 :=
    roundToNearestEven_bounds em.mantissa em.accuracy
  have hne : em.roundedMantissa ≠ 0 := by omega
  -- rounding may add a bit, so the exponent may grow once more
  have hlog' : em.roundedMantissa.log2 < 54 := (Nat.log2_lt hne).2 (by omega)
  dsimp only
  rcases hlast : shiftToTargetExponent .binary64 em.roundedMantissa
    (max e (m.log2 + e - 52)) .exact with ⟨em', e₂⟩
  obtain ⟨hpos', hlt', rfl⟩ := shiftToTargetExponent_bounds hne (by omega) hlast
  dsimp only
  rw [dif_neg (Nat.ne_of_gt hpos')]
  exact isRegular_unpack_pack hpos' hlt' (by omega) (by omega) s

/-! ## Arithmetic -/

/-- A product with a regular number is no NaN. -/
theorem isNaN_mul {u v : UnpackedFloat} (hu : u.isNaN = false) (hv : isRegular v = true)
    (format : Format) : (mul format u v).isNaN = false := by
  cases v with
  | finite =>
    cases u with
    | notANumber => cases hu
    | finite => exact isNaN_roundWithAccuracy _ _ _ _ _
    | _ => rfl
  | _ => cases hv

/-- A quotient by a regular number is no NaN. -/
theorem isNaN_div {u v : UnpackedFloat} (hu : u.isNaN = false) (hv : isRegular v = true)
    (format : Format) : (div format u v).isNaN = false := by
  cases v with
  | finite =>
    cases u with
    | notANumber => cases hu
    | finite => exact isNaN_roundWithAccuracy _ _ _ _ _
    | _ => rfl
  | _ => cases hv

/-- The negative of a number is no NaN. -/
theorem isNaN_neg {u : UnpackedFloat} (hu : u.isNaN = false) : u.neg.isNaN = false := by
  cases u with
  | notANumber => cases hu
  | _ => rfl

end Binary64

/-! ## Numerals -/

namespace Json.Numeral

open Binary64

/-- A significand is a number. -/
theorem isNaN_ofSignificand (n : Nat) : (ofSignificand n).isNaN = false :=
  isNaN_pack (isNaN_normalize _ _ _ _)

/-- Zero is a number. -/
theorem isNaN_zero : (0 : Float).isNaN = false := by
  decide +kernel

/-- A shift to the left adds that many bits and no more. -/
theorem log2_shiftLeft_lt {n b : Nat} (a : Nat) (hn : n ≠ 0) (h : n < 2 ^ b) :
    ((1 <<< a) * n).log2 < a + b := by
  rw [Nat.one_shiftLeft, Nat.log2_lt (Nat.mul_ne_zero (Nat.ne_of_gt (Nat.two_pow_pos a)) hn),
    Nat.pow_add]
  exact Nat.mul_lt_mul_of_pos_left h (Nat.two_pow_pos a)

/-- The powers of ten that scale a number are all within range of a double. -/
theorem ten_pow_lt {k : Nat} (hk : k ≤ 307) : 10 ^ k < 2 ^ 1023 :=
  Nat.lt_of_le_of_lt (Nat.pow_le_pow_right (by decide) hk) (by decide +kernel)

/-- Above the powers that are exact, a power of ten is rounded. -/
theorem powerOfTen_unpack {k : Nat} (hexact : 22 < k) (hk : k ≤ 2048) :
    (powerOfTen k).toModel.unpack = (Float.Model.pack
      (roundWithAccuracy .binary64 .positive ((1 <<< 53) * 10 ^ k) (-53) .exact)).unpack := by
  have hbig : ¬ (k : Int) > 2 ^ Format.binary64.exponentBits := by
    change ¬ (k : Int) > 2048
    omega
  have hsmall : ¬ (k : Int) < -((2 ^ Format.binary64.exponentBits : Int) + (1 : Nat).log2) := by
    change ¬ (k : Int) < -(2048 + (0 : Nat))
    omega
  have hone : ¬ (1 : Nat) = 0 := by decide
  have hpos : (0 : Int) ≤ k := Int.natCast_nonneg k
  rw [powerOfTen, Float.ofScientific, dif_neg (by omega)]
  change (Float.Model.pack (UnpackedFloat.ofScientific .binary64 1 (k : Int))).unpack = _
  rw [UnpackedFloat.ofScientific, dif_neg hone, if_neg hbig, if_neg hsmall, if_pos hpos]
  rfl

/-- **The powers of ten up to the greatest finite one are neither zero nor infinite.** -/
theorem isRegular_powerOfTen {k : Nat} (hk : k ≤ maxPower) :
    isRegular (powerOfTen k).toModel.unpack = true := by
  have hexact : ∀ k ≤ 22, isRegular (powerOfTen k).toModel.unpack = true := by decide +kernel
  by_cases hlow : k ≤ 22
  · exact hexact k hlow
  by_cases hlast : k = 308
  · subst hlast
    decide +kernel
  have hk' : k ≤ 307 := by
    change k ≤ 308 at hk
    omega
  rw [powerOfTen_unpack (by omega) (by omega)]
  have hten : 10 ^ k ≠ 0 := Nat.ne_of_gt (Nat.pow_pos (by decide))
  have hne : (1 <<< 53) * 10 ^ k ≠ 0 := Nat.mul_ne_zero (by decide) hten
  have hlog := log2_shiftLeft_lt 53 hten (ten_pow_lt hk')
  exact isRegular_round hne (by decide) (by decide) (by omega) _ _

/-- Scaling a number down gives a number. -/
theorem isNaN_scaleDown {x : Float} (hx : x.isNaN = false) (k : Nat) :
    (scaleDown x k).isNaN = false := by
  fun_induction scaleDown x k with
  | case1 x k hk => exact isNaN_pack (isNaN_div hx (isRegular_powerOfTen hk) _)
  | case2 x k hk hzero => exact hx
  | case3 x k hk hzero ih =>
    exact ih (isNaN_pack (isNaN_div hx (isRegular_powerOfTen (Nat.le_refl _)) _))

/-- Scaling a number gives a number whenever it gives anything. -/
theorem isNaN_scale {x y : Float} {e : Int} (hx : x.isNaN = false) (h : scale? x e = some y) :
    y.isNaN = false := by
  cases e with
  | ofNat k =>
    rw [scale?] at h
    split at h
    · next hk =>
      dsimp only at h
      split at h
      · cases h
      · cases h
        exact isNaN_pack (isNaN_mul hx (isRegular_powerOfTen hk) _)
    · split at h
      · cases h
        exact hx
      · cases h
  | negSucc k =>
    cases h
    exact isNaN_scaleDown hx _

/-- A sign makes no NaN. -/
theorem isNaN_withSign {x : Float} (hx : x.isNaN = false) (negative : Bool) :
    (withSign negative x).isNaN = false := by
  rw [withSign]
  split
  · exact isNaN_pack (isNaN_neg hx)
  · exact hx

/-- An integer of a JSON text is data, as an integer or as the double it is rounded to. -/
theorem isData_integerValue (negative : Bool) (n : Nat) : (integerValue negative n).IsData := by
  rw [integerValue]
  split
  · split
    · exact .float (ofFloat_ne_nan (isNaN_pack (isNaN_neg (isNaN_ofSignificand n))))
    · exact .int _
  · split
    · exact .int _
    · exact .float (ofFloat_ne_nan (isNaN_ofSignificand n))

/-- The last steps of `value?`: a significand is scaled and given its sign. -/
theorem isData_scaled {significand : Nat} {shift : Int} {negative : Bool} {v : Value}
    (h : ((scale? (ofSignificand significand) shift).elim (throw 0) pure >>= fun magnitude =>
      (pure (.float (withSign negative magnitude)) : Except Nat Value)) = .ok v) : v.IsData := by
  rcases hscale : scale? (ofSignificand significand) shift with _ | magnitude
  · rw [hscale] at h
    cases h
  · rw [hscale] at h
    cases h
    have hmagnitude := isNaN_scale (isNaN_ofSignificand significand) hscale
    exact .float (ofFloat_ne_nan (isNaN_withSign hmagnitude negative))

/-- **No numeral stands for NaN.** -/
theorem isData_of_value? {numeral : Numeral} {v : Value} (h : numeral.value? = .ok v) :
    v.IsData := by
  rw [value?] at h
  dsimp only at h
  split at h
  · cases h
    exact isData_integerValue _ _
  · split at h
    · exact isData_scaled h
    · split at h
      · exact isData_scaled h
      · split at h
        · cases h
          exact .float (ofFloat_ne_nan (isNaN_withSign isNaN_zero _))
        · cases h

end Json.Numeral

end FilterQuery
