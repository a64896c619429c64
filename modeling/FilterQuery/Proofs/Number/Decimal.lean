import FilterQuery.Binary64.Decimal
import Mathlib.Data.Rat.Floor
import Mathlib.Tactic.FieldSimp
import Mathlib.Tactic.Linarith
import Mathlib.Tactic.Positivity

/-!
# Proofs/Number/Decimal — how near the decimal form of a double is

    m / 2 ^ k ──multiplyFives──▸ ──dropPlaces──▸ ──dropExcess──▸ ──stripZeros──▸ c / 10 ^ s

Each stage rounds on a grid that contains the whole numbers, so it moves no number past one
(`SameSide`), and a number that is whole stays what it is.  Bits that are lost and places that are
dropped bound how far each stage moves a number (`Cuts`, `Drops`), and together the stages keep
fourteen digits or twenty-seven places of it (`near_ofPowers`).
-/

namespace FilterQuery.Decimal

/-- The number `m / 10 ^ scale`. -/
def fraction (p : ℕ × ℕ) : ℚ :=
  p.1 / 10 ^ p.2

/-- `y` is on the side of every whole number on which `x` is, or on the number itself. -/
def SameSide (x y : ℚ) : Prop :=
  ∀ n : ℤ, ((n : ℚ) ≤ x → (n : ℚ) ≤ y) ∧ (x ≤ n → y ≤ n)

namespace SameSide

/-- A number is on its own side of every integer. -/
theorem refl (x : ℚ) : SameSide x x :=
  fun _ => ⟨id, id⟩

/-- Being on the same side carries over. -/
theorem trans {x y z : ℚ} (h : SameSide x y) (h' : SameSide y z) : SameSide x z :=
  fun n => ⟨fun hn => (h' n).1 ((h n).1 hn), fun hn => (h' n).2 ((h n).2 hn)⟩

/-- Numbers that are not negative have natural numbers beside them only. -/
theorem of_natCast {x y : ℚ} (hx : 0 ≤ x) (hy : 0 ≤ y)
    (h : ∀ n : ℕ, ((n : ℚ) ≤ x → (n : ℚ) ≤ y) ∧ (x ≤ n → y ≤ n)) : SameSide x y := by
  intro n
  obtain ⟨k, rfl | rfl⟩ := n.eq_nat_or_neg
  · exact_mod_cast h k
  · have hk : (0 : ℚ) ≤ k := by positivity
    push_cast
    refine ⟨fun _ => by linarith, fun hn => ?_⟩
    have hzero : (k : ℚ) = 0 := by linarith
    rw [hzero, neg_zero] at hn ⊢
    exact_mod_cast (h 0).2 (by exact_mod_cast hn)

/-- Negatives of numbers on the same side are on the same side. -/
theorem neg {x y : ℚ} (h : SameSide x y) : SameSide (-x) (-y) := by
  intro n
  obtain ⟨hle, hge⟩ := h (-n)
  push_cast at hle hge
  exact ⟨fun hn => by linarith [hge (by linarith)], fun hn => by linarith [hle (by linarith)]⟩

/-- **Whole numbers do not move.** -/
theorem eq_of_intCast {x y : ℚ} (h : SameSide x y) {n : ℤ} (hx : x = n) : y = n :=
  le_antisymm ((h n).2 hx.le) ((h n).1 hx.ge)

end SameSide

/-- An integer is below a fraction if it is so after scaling. -/
theorem natCast_le_fraction_iff {n m scale : ℕ} :
    (n : ℚ) ≤ fraction (m, scale) ↔ n * 10 ^ scale ≤ m := by
  rw [fraction, le_div_iff₀ (by positivity)]
  exact_mod_cast Iff.rfl

/-- An integer is above a fraction if it is so after scaling. -/
theorem fraction_le_natCast_iff {n m scale : ℕ} :
    fraction (m, scale) ≤ n ↔ m ≤ n * 10 ^ scale := by
  rw [fraction, div_le_iff₀ (by positivity)]
  exact_mod_cast Iff.rfl

/-- A fraction of naturals is not negative. -/
theorem fraction_nonneg (p : ℕ × ℕ) : 0 ≤ fraction p := by
  unfold fraction
  positivity

/-! ## One place less -/

/-- A tenth, rounded, in terms of tens. -/
theorem roundTen_spec (m : ℕ) : (∀ n, 10 * n ≤ m → n ≤ roundTen m) ∧
    (∀ n, m ≤ 10 * n → roundTen m ≤ n) ∧ 10 * roundTen m ≤ m + 5 ∧ m ≤ 10 * roundTen m + 5 := by
  unfold roundTen
  split <;> refine ⟨fun n hn => ?_, fun n hn => ?_, ?_, ?_⟩ <;> omega

/-- Rounding one digit away never carries a number across an integer. -/
theorem sameSide_roundTen (m s : ℕ) :
    SameSide (fraction (m, s + 1)) (fraction (roundTen m, s)) := by
  obtain ⟨hle, hge, -, -⟩ := roundTen_spec m
  refine .of_natCast (fraction_nonneg _) (fraction_nonneg _) fun n => ?_
  have hten : n * 10 ^ (s + 1) = 10 * (n * 10 ^ s) := by ring
  simp only [natCast_le_fraction_iff, fraction_le_natCast_iff, hten]
  exact ⟨hle _, hge _⟩

/-- Rounding one digit away moves a number by half of the last digit kept, at most. -/
theorem abs_roundTen_sub_le (m s : ℕ) :
    |fraction (roundTen m, s) - fraction (m, s + 1)| ≤ 1 / 2 / 10 ^ s := by
  obtain ⟨-, -, hle, hge⟩ := roundTen_spec m
  have hs : (0 : ℚ) < 10 ^ s := by positivity
  have hsub : fraction (roundTen m, s) - fraction (m, s + 1) =
      (10 * roundTen m - m) / 10 / 10 ^ s := by
    simp only [fraction, pow_succ]
    field_simp
  have hle' : (10 * roundTen m : ℚ) ≤ m + 5 := by exact_mod_cast hle
  have hge' : (m : ℚ) ≤ 10 * roundTen m + 5 := by exact_mod_cast hge
  rw [hsub, abs_div, abs_of_pos hs]
  gcongr
  rw [abs_le]
  constructor <;> linarith

/-- Half a unit of a place fits between a place and the next one. -/
theorem half_le_sub (s : ℕ) : (1 / 2 / 10 ^ s : ℚ) ≤ 1 / 10 ^ s - 1 / 10 ^ (s + 1) := by
  have hs : (0 : ℚ) < 10 ^ s := by positivity
  rw [pow_succ, div_le_iff₀ hs]
  field_simp
  norm_num

/-! ## Dropping places -/

/-- What dropping places down to `s` may do to a number: it stays on its side of the whole numbers,
and the places that are gone bound how far it moves. -/
structure Drops (s : ℕ) (p q : ℕ × ℕ) : Prop where
  sameSide : SameSide (fraction p) (fraction q)
  near : |fraction q - fraction p| ≤ 1 / 10 ^ s - 1 / 10 ^ p.2

namespace Drops

/-- Nothing dropped is nothing lost. -/
theorem refl (p : ℕ × ℕ) : Drops p.2 p p :=
  ⟨.refl _, by simp⟩

/-- Digits dropped twice are digits dropped: the two bounds telescope. -/
theorem trans {s : ℕ} {p q r : ℕ × ℕ} (h : Drops q.2 p q) (h' : Drops s q r) : Drops s p r where
  sameSide := h.sameSide.trans h'.sameSide
  near := by
    have htriangle := abs_sub_le (fraction r) (fraction q) (fraction p)
    linarith [h.near, h'.near]

/-- One place is dropped. -/
theorem roundTen (m s : ℕ) : Drops s (m, s + 1) (Decimal.roundTen m, s) :=
  ⟨sameSide_roundTen m s, (abs_roundTen_sub_le m s).trans (half_le_sub s)⟩

/-- A last digit that stands behind the places to keep is dropped without rounding. -/
theorem zero {m : ℕ} (hm : m < 10) (s k : ℕ) : Drops s (m, s + (k + 1)) (0, 0) where
  sameSide := by
    refine .of_natCast (fraction_nonneg _) (fraction_nonneg _) fun n => ?_
    have hpow : m < 10 ^ (s + (k + 1)) := hm.trans_le (Nat.le_self_pow (by omega) 10)
    simp only [natCast_le_fraction_iff, fraction_le_natCast_iff]
    constructor
    · intro hle
      have hn : n = 0 := by
        by_contra hne
        have : 10 ^ (s + (k + 1)) ≤ n * 10 ^ (s + (k + 1)) :=
          Nat.le_mul_of_pos_left _ (Nat.pos_of_ne_zero hne)
        omega
      simp [hn]
    · exact fun _ => Nat.zero_le _
  near := by
    have hm' : (m : ℚ) ≤ 9 := by exact_mod_cast Nat.le_of_lt_succ hm
    have hs : (1 : ℚ) / 10 ^ (s + k) ≤ 1 / 10 ^ s := by
      gcongr
      · norm_num
      · omega
    have hsucc : (1 : ℚ) / 10 ^ (s + k) = 10 / 10 ^ (s + (k + 1)) := by
      rw [← add_assoc, pow_succ]
      field_simp
    have hsub : |fraction (0, 0) - fraction (m, s + (k + 1))| = m / 10 ^ (s + (k + 1)) := by
      simp only [fraction, Nat.cast_zero, zero_div, zero_sub, abs_neg]
      exact abs_of_nonneg (by positivity)
    have hle : (m : ℚ) / 10 ^ (s + (k + 1)) ≤ 9 / 10 ^ (s + (k + 1)) := by gcongr
    have hnine : (9 : ℚ) / 10 ^ (s + (k + 1)) =
        10 / 10 ^ (s + (k + 1)) - 1 / 10 ^ (s + (k + 1)) := by ring
    rw [hsub]
    linarith

end Drops

/-- Places are dropped one by one. -/
theorem drops_dropPlaces (k m s : ℕ) : Drops s (m, s + k) (dropPlaces k m (s + k)) := by
  induction k generalizing m with
  | zero => exact .refl (m, s)
  | succ k ih =>
    rw [dropPlaces]
    split
    · next hm => exact .zero (by omega) s k
    · have hone : Drops (s + k) (m, s + k + 1) (roundTen m, s + k) := .roundTen m (s + k)
      exact hone.trans (ih (roundTen m))

/-- What is left of a coefficient that was cut, at the least. -/
def cutBound : ℕ := 450359962737049

/-- Excess places are dropped one by one, and the coefficient stays large. -/
theorem drops_dropExcess (m s : ℕ) : Drops (dropExcess m s).2 (m, s) (dropExcess m s) ∧
    (dropExcess m s = (m, s) ∨ cutBound ≤ (dropExcess m s).1) := by
  induction s generalizing m with
  | zero => exact ⟨.refl (m, 0), Or.inl rfl⟩
  | succ s ih =>
    rw [dropExcess]
    split
    · next hm =>
      obtain ⟨hdrops, hcut⟩ := ih (roundTen m)
      refine ⟨(Drops.roundTen m s).trans hdrops, Or.inr ?_⟩
      have hbound : precisionBound = 4503599627370496 := by decide
      have hround : cutBound ≤ roundTen m := by
        have hspec := (roundTen_spec m).1 cutBound
        unfold cutBound at hspec ⊢
        omega
      rcases hcut with heq | hcut
      · rw [heq]
        exact hround
      · exact hcut
    · exact ⟨.refl (m, s + 1), Or.inl rfl⟩

/-- What is cut is little beside what is left. -/
theorem Drops.near_of_cut {p q : ℕ × ℕ} (h : Drops q.2 p q) (hcut : q = p ∨ cutBound ≤ q.1) :
    |fraction q - fraction p| ≤ fraction p * (3 / 10 ^ 15) := by
  have hp : 0 ≤ fraction p := fraction_nonneg p
  rcases hcut with rfl | hcut
  · rw [sub_self, abs_zero]
    positivity
  · have hplace : (0 : ℚ) < 1 / 10 ^ q.2 := by positivity
    have hlast : (0 : ℚ) ≤ 1 / 10 ^ p.2 := by positivity
    have hnear := h.near
    have hlarge : (450359962737049 : ℚ) * (1 / 10 ^ q.2) ≤ fraction q := by
      have hcast : (450359962737049 : ℚ) ≤ q.1 := by exact_mod_cast hcut
      rw [fraction, div_eq_mul_one_div (q.1 : ℚ)]
      gcongr
    have hle := (abs_le.1 hnear).2
    generalize (1 : ℚ) / 10 ^ q.2 = place at *
    generalize (1 : ℚ) / 10 ^ p.2 = last at *
    linarith

/-- Zeros at the end say nothing. -/
theorem fraction_stripZeros (m s : ℕ) : fraction (stripZeros m s) = fraction (m, s) := by
  induction s generalizing m with
  | zero => rfl
  | succ s ih =>
    rw [stripZeros]
    split
    · next hm =>
      obtain ⟨q, rfl⟩ := Nat.dvd_of_mod_eq_zero hm
      rw [ih, Nat.mul_div_cancel_left q (by decide), fraction, fraction, pow_succ]
      push_cast
      field_simp
    · rfl

/-! ## Multiplying out the fives -/

/-- What losing bits may do to a number: it becomes less, but not less than a whole number that it
was not less than, and at most by a share `e` of itself. -/
structure Cuts (e x y : ℚ) : Prop where
  le : y ≤ x
  whole : ∀ n : ℕ, (n : ℚ) ≤ x → (n : ℚ) ≤ y
  near : x - y ≤ x * e

namespace Cuts

/-- A number cut nowhere is itself. -/
theorem refl {e x : ℚ} (hx : 0 ≤ x) (he : 0 ≤ e) : Cuts e x x :=
  ⟨le_rfl, fun _ => id, by simpa using mul_nonneg hx he⟩

/-- Cutting twice adds up the errors. -/
theorem trans {d e x y z : ℚ} (he : 0 ≤ e) (h : Cuts d x y) (h' : Cuts e y z) :
    Cuts (d + e) x z where
  le := h'.le.trans h.le
  whole n hn := h'.whole n (h.whole n hn)
  near := by
    have hshare : y * e ≤ x * e := mul_le_mul_of_nonneg_right h.le he
    linarith [h.near, h'.near]

/-- A cut never carries a number across an integer. -/
theorem sameSide {e x y : ℚ} (h : Cuts e x y) (hy : 0 ≤ y) : SameSide x y :=
  .of_natCast (hy.trans h.le) hy fun n => ⟨h.whole n, h.le.trans⟩

end Cuts

/-- The share of a coefficient that its last bit is, at the most, where it is lost. -/
def bitShare : ℚ :=
  5 / 2 ^ 96

/-- A last bit is lost, of a coefficient that leaves no room for a five. -/
theorem cuts_half {m k : ℕ} (hodd : m % 2 = 1) (hroom : coefficientBound ≤ 5 * m) (j : ℕ) :
    Cuts bitShare (m / (2 ^ (k + 1) * 10 ^ j)) ((m / 2 : ℕ) / (2 ^ k * 10 ^ j)) := by
  have hbound : coefficientBound = 2 ^ 96 := by decide
  obtain ⟨q, rfl⟩ : ∃ q, m = 2 * q + 1 := ⟨m / 2, by omega⟩
  have hhalf : (2 * q + 1) / 2 = q := by omega
  have hgrid : (0 : ℚ) < 2 ^ k * 10 ^ j := by positivity
  have hdouble : (2 : ℚ) ^ (k + 1) * 10 ^ j = 2 * (2 ^ k * 10 ^ j) := by ring
  rw [hhalf, hdouble]
  generalize hg : (2 : ℚ) ^ k * 10 ^ j = grid at hgrid
  refine ⟨?_, fun n hn => ?_, ?_⟩
  · rw [div_le_div_iff₀ hgrid (by positivity)]
    push_cast
    linarith only [hgrid]
  · -- the grid holds the whole numbers, and what is lost lies between two of its points
    have hgridNat : ((2 ^ k * 10 ^ j : ℕ) : ℚ) = grid := by
      rw [← hg]
      push_cast
      rfl
    rw [le_div_iff₀ (by positivity), ← hgridNat] at hn
    rw [le_div_iff₀ hgrid, ← hgridNat]
    have hnat : n * (2 * (2 ^ k * 10 ^ j)) ≤ 2 * q + 1 := by exact_mod_cast hn
    have hcomm : n * (2 * (2 ^ k * 10 ^ j)) = 2 * (n * (2 ^ k * 10 ^ j)) := by ring
    have hq : n * (2 ^ k * 10 ^ j) ≤ q := by omega
    exact_mod_cast hq
  · have hlarge : (2 ^ 96 : ℚ) ≤ 5 * (2 * q + 1) := by
      rw [hbound] at hroom
      exact_mod_cast hroom
    have hsub : ((2 * q + 1 : ℕ) : ℚ) / (2 * grid) - q / grid = 1 / (2 * grid) := by
      push_cast
      field_simp
      ring
    have hscaled := mul_le_mul_of_nonneg_left hlarge hgrid.le
    rw [hsub, bitShare, div_mul_div_comm, div_le_div_iff₀ (by positivity) (by positivity)]
    push_cast
    linarith only [hscaled]

/-- **Multiplying out the fives loses bits only where there is no room for them.** -/
theorem cuts_multiplyFives (k m j : ℕ) : Cuts (k * bitShare) (m / (2 ^ k * 10 ^ j))
    (fraction (multiplyFives k m (k + j))) := by
  have hshare : 0 ≤ bitShare := by
    unfold bitShare
    positivity
  induction k generalizing m j with
  | zero =>
    have heq : (m : ℚ) / (2 ^ 0 * 10 ^ j) = fraction (multiplyFives 0 m (0 + j)) := by
      simp [multiplyFives, fraction]
    rw [heq]
    exact .refl (fraction_nonneg _) (by simp)
  | succ k ih =>
    have hplaces : k + 1 + j - 1 = k + j := by omega
    have hsum : ((k + 1 : ℕ) : ℚ) * bitShare = bitShare + k * bitShare := by
      push_cast
      ring
    have hk : 0 ≤ (k : ℚ) * bitShare := by positivity
    rw [multiplyFives, hplaces, hsum]
    split
    · next heven =>
      obtain ⟨q, rfl⟩ := Nat.dvd_of_mod_eq_zero heven
      have heq : ((2 * q : ℕ) : ℚ) / (2 ^ (k + 1) * 10 ^ j) = q / (2 ^ k * 10 ^ j) := by
        push_cast
        field_simp
        ring
      rw [Nat.mul_div_cancel_left q (by decide), heq]
      exact (Cuts.refl (by positivity) hshare).trans hk (ih q j)
    · next hodd =>
      split
      · have heq : (m : ℚ) / (2 ^ (k + 1) * 10 ^ j) = (5 * m : ℕ) / (2 ^ k * 10 ^ (j + 1)) := by
          push_cast
          field_simp
          ring
        have hscale : k + 1 + j = k + (j + 1) := by omega
        rw [heq, hscale]
        exact (Cuts.refl (by positivity) hshare).trans hk (ih (5 * m) (j + 1))
      · next hroom =>
        exact (cuts_half (by omega) (by omega) j).trans hk (ih (m / 2) j)

/-! ## Fractions -/

/-- Two numbers agree to fourteen digits or to twenty-seven places. -/
def Near (x y : ℚ) : Prop :=
  |y - x| ≤ |x| / 10 ^ 14 + 1 / 10 ^ 27

/-- A number is near itself. -/
theorem Near.refl (x : ℚ) : Near x x := by
  rw [Near, sub_self, abs_zero]
  positivity

/-- Negatives of near numbers are near. -/
theorem Near.neg {x y : ℚ} (h : Near x y) : Near (-x) (-y) := by
  rw [Near, abs_neg, neg_sub_neg, abs_sub_comm]
  exact h

/-- The places behind the twenty-eighth go. -/
theorem dropPlaces_maxScale (p : ℕ × ℕ) :
    SameSide (fraction p) (fraction (dropPlaces (p.2 - maxScale) p.1 p.2)) ∧
      |fraction (dropPlaces (p.2 - maxScale) p.1 p.2) - fraction p| ≤ 1 / 10 ^ 28 := by
  obtain ⟨m, scale⟩ := p
  by_cases hscale : scale ≤ maxScale
  · rw [Nat.sub_eq_zero_of_le hscale]
    exact ⟨.refl _, by simp [dropPlaces]⟩
  · obtain ⟨k, rfl⟩ : ∃ k, scale = maxScale + k := ⟨scale - maxScale, by omega⟩
    have hdrops := drops_dropPlaces k m maxScale
    rw [Nat.add_sub_cancel_left]
    refine ⟨hdrops.sameSide, hdrops.near.trans ?_⟩
    have hlast : (0 : ℚ) ≤ 1 / 10 ^ (maxScale + k) := by positivity
    have hscale : maxScale = 28 := rfl
    rw [hscale] at hlast ⊢
    linarith

/-- The coefficient and the places that stand for `m / 2 ^ k`. -/
def ofPowers (k m : ℕ) : ℕ × ℕ :=
  let p := multiplyFives k m k
  let q := dropPlaces (p.2 - maxScale) p.1 p.2
  let r := dropExcess q.1 q.2
  stripZeros r.1 r.2

/-- **The stages together move a number by little, and past no whole number.** -/
theorem near_ofPowers {k : ℕ} (hk : k ≤ 1074) (m : ℕ) :
    SameSide (m / 2 ^ k) (fraction (ofPowers k m)) ∧
      Near (m / 2 ^ k) (fraction (ofPowers k m)) := by
  have hfives := cuts_multiplyFives k m 0
  rw [Nat.add_zero, pow_zero, mul_one] at hfives
  rw [ofPowers, fraction_stripZeros]
  generalize multiplyFives k m k = p at hfives ⊢
  obtain ⟨hplacesSide, hplaces⟩ := dropPlaces_maxScale p
  generalize dropPlaces (p.2 - maxScale) p.1 p.2 = q at hplacesSide hplaces ⊢
  obtain ⟨hexcess, hcut⟩ := drops_dropExcess q.1 q.2
  have hexcessNear := hexcess.near_of_cut hcut
  have hexcessSide := hexcess.sameSide
  generalize dropExcess q.1 q.2 = r at hexcessNear hexcessSide ⊢
  have hx : (0 : ℚ) ≤ m / 2 ^ k := by positivity
  refine ⟨((hfives.sameSide (fraction_nonneg p)).trans hplacesSide).trans hexcessSide, ?_⟩
  generalize (m : ℚ) / 2 ^ k = x at hfives hx ⊢
  have hshare : (k : ℚ) * bitShare ≤ 1 / 10 ^ 20 := by
    have hk' : (k : ℚ) ≤ 1074 := by exact_mod_cast hk
    unfold bitShare
    linarith only [hk']
  have hlost : x - fraction p ≤ x * (1 / 10 ^ 20) :=
    hfives.near.trans (mul_le_mul_of_nonneg_left hshare hx)
  have hless := hfives.le
  change |fraction q - fraction p| ≤ 1 / 10 ^ 28 at hplaces
  change |fraction r - fraction q| ≤ fraction q * (3 / 10 ^ 15) at hexcessNear
  rw [Near, abs_of_nonneg hx]
  obtain ⟨hplacesLow, hplacesHigh⟩ := abs_le.1 hplaces
  obtain ⟨hexcessLow, hexcessHigh⟩ := abs_le.1 hexcessNear
  refine abs_le.2 ⟨?_, ?_⟩
  · linarith only [hx, hlost, hless, hplacesLow, hplacesHigh, hexcessLow]
  · linarith only [hx, hless, hplacesHigh, hexcessHigh]

end FilterQuery.Decimal
