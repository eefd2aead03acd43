import Mathlib.Algebra.Order.Field.Power
import Mathlib.Data.Nat.Log
import Mathlib.Data.Rat.Cast.Order
import Mathlib.Tactic.FieldSimp
import Mathlib.Tactic.Linarith
import Mathlib.Tactic.Ring
import TreeCorpus.Number.Shortest

/-!
# The nearest number

A finite number has one significand and scale (`Canonical`), and a quotient in the interval around
it rounds to it (`round_of_near`).
-/

namespace TreeCorpus.Number

/-! ## Powers with a signed exponent -/

section Powers

variable {b num den : Nat} {k : Int}

theorem zpow_mul_pow_neg (hb : 0 < b) (k : Int) :
    (b : ℚ) ^ k * (b : ℚ) ^ (-k).toNat = (b : ℚ) ^ k.toNat := by
  have hne : (b : ℚ) ≠ 0 := Nat.cast_ne_zero.2 (Nat.ne_of_gt hb)
  rw [← zpow_natCast, ← zpow_natCast, ← zpow_add₀ hne]
  congr 1
  omega

/-- A comparison of scaled numbers is one with a power that has a signed exponent. -/
theorem cmp_scaled (hb : 0 < b) :
    cmp (num * b ^ (-k).toNat) (den * b ^ k.toNat) = cmp (num : ℚ) (den * (b : ℚ) ^ k) := by
  have hpos : (0 : ℚ) < (b : ℚ) ^ (-k).toNat := pow_pos (Nat.cast_pos.2 hb) _
  have hnum : ((num * b ^ (-k).toNat : Nat) : ℚ) = num * (b : ℚ) ^ (-k).toNat := by push_cast; rfl
  have hden : ((den * b ^ k.toNat : Nat) : ℚ) = den * (b : ℚ) ^ k * (b : ℚ) ^ (-k).toNat := by
    rw [mul_assoc, zpow_mul_pow_neg hb k]
    push_cast
    rfl
  calc cmp (num * b ^ (-k).toNat) (den * b ^ k.toNat)
    _ = cmp ((num * b ^ (-k).toNat : Nat) : ℚ) ((den * b ^ k.toNat : Nat) : ℚ) :=
      (Nat.strictMono_cast.cmp_map_eq _ _).symm
    _ = cmp (num * (b : ℚ) ^ (-k).toNat) (den * (b : ℚ) ^ k * (b : ℚ) ^ (-k).toNat) :=
      congrArg₂ cmp hnum hden
    _ = cmp (num : ℚ) (den * (b : ℚ) ^ k) := cmp_mul_pos_right hpos _ _

theorem scaled_le_iff (hb : 0 < b) :
    num * b ^ (-k).toNat ≤ den * b ^ k.toNat ↔ (num : ℚ) ≤ den * (b : ℚ) ^ k :=
  le_iff_le_of_cmp_eq_cmp (cmp_scaled hb)

theorem scaled_lt_iff (hb : 0 < b) :
    num * b ^ (-k).toNat < den * b ^ k.toNat ↔ (num : ℚ) < den * (b : ℚ) ^ k :=
  lt_iff_lt_of_cmp_eq_cmp (cmp_scaled hb)

end Powers

/-! ## The rounded quotient -/

/-- A quotient is rounded to a number that is within half a unit of it, at exactly half a unit only
to an even one. -/
theorem roundDiv_eq {num den n : Nat} (hden : 0 < den) (hlow : (2 * n - 1) * den ≤ 2 * num)
    (hhigh : 2 * num ≤ (2 * n + 1) * den)
    (hodd : n % 2 = 1 → (2 * n - 1) * den < 2 * num ∧ 2 * num < (2 * n + 1) * den) :
    roundDiv num den = n := by
  have hsplit := Nat.div_add_mod num den
  have hrem := Nat.mod_lt num hden
  unfold roundDiv
  dsimp only
  generalize num / den = q at *
  generalize num % den = r at *
  rw [Nat.mul_comm] at hsplit
  rw [Nat.sub_mul, Nat.add_mul, Nat.mul_assoc, Nat.one_mul] at *
  obtain rfl | rfl | hbelow | habove : n = q ∨ n = q + 1 ∨ n + 1 ≤ q ∨ q + 2 ≤ n := by omega
  · rw [if_neg (by omega)]
  · rw [Nat.add_mul, Nat.one_mul] at hlow hhigh hodd
    rw [if_pos (by omega)]
  · have hle := Nat.mul_le_mul_right den hbelow
    rw [Nat.add_mul, Nat.one_mul] at hle
    omega
  · have hle := Nat.mul_le_mul_right den habove
    rw [Nat.add_mul] at hle
    omega

/-- On the grid of a scale a quotient is rounded to a number within half a place of it. -/
theorem roundDiv_scaled {num den n : Nat} {q : Int} {p : ℚ} (hden : 0 < den) (hp : p * den = num)
    (hlow : ((2 * n - 1 : Nat) : ℚ) * 2 ^ q ≤ 2 * p)
    (hhigh : 2 * p ≤ ((2 * n + 1 : Nat) : ℚ) * 2 ^ q)
    (hodd : n % 2 = 1 → ((2 * n - 1 : Nat) : ℚ) * 2 ^ q < 2 * p ∧
      2 * p < ((2 * n + 1 : Nat) : ℚ) * 2 ^ q) :
    roundDiv (num * 2 ^ (-q).toNat) (den * 2 ^ q.toNat) = n := by
  have hdenPos : (0 : ℚ) < den := Nat.cast_pos.2 hden
  have hle (a : Nat) : 2 * (num * 2 ^ (-q).toNat) ≤ a * (den * 2 ^ q.toNat) ↔
      2 * p ≤ a * 2 ^ q := by
    rw [← Nat.mul_assoc, ← Nat.mul_assoc, scaled_le_iff (by decide)]
    push_cast
    rw [← hp, ← mul_assoc, mul_right_comm (a : ℚ), mul_le_mul_iff_left₀ hdenPos]
  have hge (a : Nat) : a * (den * 2 ^ q.toNat) ≤ 2 * (num * 2 ^ (-q).toNat) ↔
      a * 2 ^ q ≤ 2 * p := by
    rw [← Nat.not_lt, ← not_lt, ← Nat.mul_assoc, ← Nat.mul_assoc, scaled_lt_iff (by decide)]
    push_cast
    rw [← hp, ← mul_assoc, mul_right_comm (a : ℚ), mul_lt_mul_iff_left₀ hdenPos]
  refine roundDiv_eq (Nat.mul_pos hden (Nat.two_pow_pos _)) ((hge _).2 hlow) ((hle _).2 hhigh)
    fun hn => ⟨?_, ?_⟩
  · exact Nat.lt_of_not_le fun h => absurd ((hle _).1 h) (not_le_of_gt (hodd hn).1)
  · exact Nat.lt_of_not_le fun h => absurd ((hge _).1 h) (not_le_of_gt (hodd hn).2)

/-! ## The scale -/

/-- The significand and the scale of a finite number: a scale above the least one has a significand
of all places. -/
structure Canonical (f : Format) (m : Nat) (q : Int) : Prop where
  minScale_le : f.minScale ≤ q
  lt_pow : m < 2 ^ (f.fractionBits + 1)
  pow_le_or : 2 ^ f.fractionBits ≤ m ∨ q = f.minScale

theorem cast_log2_bounds {n : Nat} (hn : 0 < n) :
    (2 : ℚ) ^ (n.log2 : Int) ≤ n ∧ (n : ℚ) < 2 ^ ((n.log2 : Int) + 1) := by
  have hlow : ((2 ^ n.log2 : Nat) : ℚ) ≤ n := Nat.cast_le.2 (Nat.log2_self_le (by omega))
  have hhigh : (n : ℚ) < ((2 ^ (n.log2 + 1) : Nat) : ℚ) := Nat.cast_lt.2 Nat.lt_log2_self
  push_cast at hlow hhigh
  refine ⟨by rwa [zpow_natCast], ?_⟩
  rwa [show ((n.log2 : Int) + 1) = ((n.log2 + 1 : Nat) : Int) by omega, zpow_natCast]

/-- The power of two at or below a quotient, from which its scale is counted. -/
theorem exists_scaleFor_eq {num den : Nat} (hnum : 0 < num) (hden : 0 < den) (f : Format) :
    ∃ k : Int, den * (2 : ℚ) ^ k ≤ num ∧ (num : ℚ) < den * (2 : ℚ) ^ (k + 1) ∧
      Binary.scaleFor f num den = max f.minScale (k - f.fractionBits) := by
  obtain ⟨hnumLow, hnumHigh⟩ := cast_log2_bounds hnum
  obtain ⟨hdenLow, hdenHigh⟩ := cast_log2_bounds hden
  have htwo (k : Int) : (0 : ℚ) < 2 ^ k := zpow_pos (by norm_num) k
  unfold Binary.scaleFor
  simp only [Nat.shiftLeft_eq]
  generalize (num.log2 : Int) = a at *
  generalize (den.log2 : Int) = b at *
  have hfits : num * 2 ^ (-(a - b)).toNat < den * 2 ^ (a - b).toNat ↔
      (num : ℚ) < den * 2 ^ (a - b) := by
    exact_mod_cast scaled_lt_iff (b := 2) (by decide)
  by_cases hlt : num * 2 ^ (-(a - b)).toNat < den * 2 ^ (a - b).toNat
  · refine ⟨a - b - 1, ?_, ?_, ?_⟩
    · calc (den : ℚ) * 2 ^ (a - b - 1)
        _ ≤ 2 ^ (b + 1) * 2 ^ (a - b - 1) := by gcongr
        _ = 2 ^ a := by rw [← zpow_add₀ (by norm_num)]; congr 1; omega
        _ ≤ num := hnumLow
    · rw [show a - b - 1 + 1 = a - b by omega]
      exact hfits.1 hlt
    · rw [if_pos hlt]
      omega
  · refine ⟨a - b, le_of_not_gt (mt hfits.2 hlt), ?_, ?_⟩
    · calc (num : ℚ)
        _ < 2 ^ (a + 1) := hnumHigh
        _ = 2 ^ b * 2 ^ (a - b + 1) := by rw [← zpow_add₀ (by norm_num)]; congr 1; omega
        _ ≤ den * 2 ^ (a - b + 1) := by gcongr
    · rw [if_neg hlt]
      omega

/-- The scale of a quotient is the one on which it has all places, or the least one. -/
theorem scaleFor_eq {f : Format} {num den : Nat} {q : Int} {p : ℚ} (hden : 0 < den)
    (hp : p * den = num) (hpos : 0 < p) (hmin : f.minScale ≤ q)
    (hhigh : p < 2 ^ (q + f.fractionBits + 1))
    (hlow : (2 : ℚ) ^ (q + f.fractionBits) ≤ p ∨ q = f.minScale) :
    Binary.scaleFor f num den = q := by
  have hdenPos : (0 : ℚ) < den := Nat.cast_pos.2 hden
  have hnum : 0 < num := by
    have := mul_pos hpos hdenPos
    rw [hp] at this
    exact Nat.cast_pos.1 this
  obtain ⟨k, hle, hlt, heq⟩ := exists_scaleFor_eq hnum hden f
  rw [← hp, mul_comm, mul_le_mul_iff_left₀ hdenPos] at hle
  rw [← hp, mul_comm (den : ℚ), mul_lt_mul_iff_left₀ hdenPos] at hlt
  have hkq : k < q + f.fractionBits + 1 :=
    (zpow_lt_zpow_iff_right₀ (by norm_num : (1 : ℚ) < 2)).1 (hle.trans_lt hhigh)
  rw [heq]
  rcases hlow with hlow | rfl
  · have hqk : q + f.fractionBits < k + 1 :=
      (zpow_lt_zpow_iff_right₀ (by norm_num : (1 : ℚ) < 2)).1 (hlow.trans_lt hlt)
    omega
  · omega

/-! ## The nearest number -/

/-- A quarter of a place is left below a power of two, whose predecessor is half a place away. -/
def placesBelow (f : Format) (m : Nat) (q : Int) : Nat :=
  if m = 2 ^ f.fractionBits ∧ f.minScale < q then 1 else 2

theorem placesBelow_le (f : Format) (m : Nat) (q : Int) : placesBelow f m q ≤ 2 := by
  unfold placesBelow
  split <;> omega

/-- A quotient that is at most half as far from `m * 2 ^ q` as the numbers next to it, and as far
as that only if the significand is even. -/
structure Near (f : Format) (m : Nat) (q : Int) (p : ℚ) : Prop where
  low : ((4 * m - placesBelow f m q : Nat) : ℚ) * 2 ^ q ≤ 4 * p
  high : 4 * p ≤ ((4 * m + 2 : Nat) : ℚ) * 2 ^ q
  odd : m % 2 = 1 → ((4 * m - placesBelow f m q : Nat) : ℚ) * 2 ^ q < 4 * p ∧
    4 * p < ((4 * m + 2 : Nat) : ℚ) * 2 ^ q

namespace Near

variable {f : Format} {m num den : Nat} {q : Int} {p : ℚ}

/-- Half of what is at most the lower end of the interval. -/
theorem double_le_low {n : Nat} (hn : 2 * n ≤ 4 * m - placesBelow f m q) :
    2 * ((n : ℚ) * 2 ^ q) ≤ ((4 * m - placesBelow f m q : Nat) : ℚ) * 2 ^ q := by
  have hw : (0 : ℚ) < 2 ^ q := zpow_pos (by norm_num) q
  have hcast : ((2 * n : Nat) : ℚ) * 2 ^ q ≤ ((4 * m - placesBelow f m q : Nat) : ℚ) * 2 ^ q :=
    mul_le_mul_of_nonneg_right (Nat.cast_le.2 hn) hw.le
  push_cast at hcast
  linarith only [hcast]

theorem double_high : 2 * (((2 * m + 1 : Nat) : ℚ) * 2 ^ q) = ((4 * m + 2 : Nat) : ℚ) * 2 ^ q := by
  push_cast
  ring

theorem half_low (h : Near f m q p) (n : Nat) (hn : 2 * n ≤ 4 * m - placesBelow f m q) :
    (n : ℚ) * 2 ^ q ≤ 2 * p := by
  linarith only [double_le_low hn, h.low]

theorem half_lt (h : Near f m q p) (hm : m % 2 = 1) (n : Nat)
    (hn : 2 * n ≤ 4 * m - placesBelow f m q) : (n : ℚ) * 2 ^ q < 2 * p := by
  linarith only [double_le_low hn, (h.odd hm).1]

theorem half_high (h : Near f m q p) : 2 * p ≤ ((2 * m + 1 : Nat) : ℚ) * 2 ^ q := by
  linarith only [h.high, double_high (m := m) (q := q)]

theorem half_gt (h : Near f m q p) (hm : m % 2 = 1) :
    2 * p < ((2 * m + 1 : Nat) : ℚ) * 2 ^ q := by
  linarith only [(h.odd hm).2, double_high (m := m) (q := q)]

theorem pos (h : Near f m q p) (hm : 0 < m) : 0 < p := by
  have hw : (0 : ℚ) < 2 ^ q := zpow_pos (by norm_num) q
  have hplaces := placesBelow_le f m q
  have hlow := h.half_low 1 (by omega)
  rw [Nat.cast_one, one_mul] at hlow
  linarith

theorem lt_zpow (h : Near f m q p) (hcan : Canonical f m q) :
    p < 2 ^ (q + f.fractionBits + 1) := by
  have hw : (0 : ℚ) < 2 ^ q := zpow_pos (by norm_num) q
  have hm : ((4 * m + 2 : Nat) : ℚ) < ((4 * 2 ^ (f.fractionBits + 1) : Nat) : ℚ) :=
    Nat.cast_lt.2 (by have := hcan.lt_pow; omega)
  have hhigh := h.high.trans_lt (mul_lt_mul_of_pos_right hm hw)
  have hpow : (2 : ℚ) ^ (q + f.fractionBits + 1) = 2 ^ q * 2 ^ (f.fractionBits + 1) := by
    rw [add_assoc, zpow_add₀ (by norm_num)]
    rfl
  push_cast at hhigh
  rw [hpow]
  linarith

end Near

/-- The pattern that a quotient is rounded to, its sign apart. -/
def roundedMagnitude (f : Format) (num den : Nat) : Nat :=
  (Binary.scaleFor f num den - f.minScale).toNat * 2 ^ f.fractionBits +
    roundDiv (num * 2 ^ (-(Binary.scaleFor f num den)).toNat)
      (den * 2 ^ (Binary.scaleFor f num den).toNat)

section Rounded

variable {f : Format} {m num den : Nat} {q : Int} {p : ℚ} (h : Canonical f m q) (hm : 0 < m)
  (hden : 0 < den) (hp : p * den = num) (hnear : Near f m q p)

include h hm hden hp hnear

theorem roundedMagnitude_of_scale (hscale : (2 : ℚ) ^ (q + f.fractionBits) ≤ p ∨ q = f.minScale) :
    roundedMagnitude f num den = (q - f.minScale).toNat * 2 ^ f.fractionBits + m := by
  have heq : Binary.scaleFor f num den = q :=
    scaleFor_eq hden hp (hnear.pos hm) h.minScale_le (hnear.lt_zpow h) hscale
  have hplaces := placesBelow_le f m q
  unfold roundedMagnitude
  rw [heq, roundDiv_scaled hden hp (hnear.half_low _ (by omega)) hnear.half_high
    fun hodd => ⟨hnear.half_lt hodd _ (by omega), hnear.half_gt hodd⟩]

/-- On the scale below, a quotient just under a power of two is rounded to twice the power. -/
theorem roundedMagnitude_below (hlt : p < (2 : ℚ) ^ (q + f.fractionBits)) (hq : q ≠ f.minScale) :
    roundedMagnitude f num den = (q - f.minScale).toNat * 2 ^ f.fractionBits + m := by
  have hw : (0 : ℚ) < 2 ^ q := zpow_pos (by norm_num) q
  have hmin := h.minScale_le
  have hplaces := placesBelow_le f m q
  have hpow : (2 : ℚ) ^ (q + f.fractionBits) = ((2 ^ f.fractionBits : Nat) : ℚ) * 2 ^ q := by
    rw [zpow_add₀ (by norm_num), mul_comm]
    push_cast
    rfl
  have hhalf : (2 : ℚ) ^ (q - 1) * 2 = 2 ^ q := by
    rw [← zpow_add_one₀ (by norm_num), Int.sub_add_cancel]
  have hone : 1 ≤ 2 ^ f.fractionBits := Nat.two_pow_pos _
  -- only the power of two itself has quotients below it that are near
  have hm : m = 2 ^ f.fractionBits := by
    refine Nat.le_antisymm (Nat.le_of_not_lt fun hgt => ?_) (h.pow_le_or.resolve_right hq)
    have hlow := hnear.half_low (2 * 2 ^ f.fractionBits) (by omega)
    rw [hpow] at hlt
    push_cast at hlow hlt
    linarith
  have hone' : placesBelow f m q = 1 := if_pos ⟨hm, by omega⟩
  have hlow := hnear.low
  rw [hone', hm] at hlow
  have heq : Binary.scaleFor f num den = q - 1 := by
    refine scaleFor_eq hden hp (hnear.pos (by omega)) (by omega) ?_ (.inl ?_)
    · rwa [show q - 1 + f.fractionBits + 1 = q + f.fractionBits by omega]
    · have hstep : (2 : ℚ) ^ (q - 1 + f.fractionBits) * 2 = 2 ^ (q + f.fractionBits) := by
        rw [← zpow_add_one₀ (by norm_num)]
        congr 1
        omega
      have hlow := hnear.half_low (2 ^ f.fractionBits) (by omega)
      rw [← hpow] at hlow
      linarith
  have hround : roundDiv (num * 2 ^ (-(q - 1)).toNat) (den * 2 ^ (q - 1).toNat) =
      2 * 2 ^ f.fractionBits := by
    refine roundDiv_scaled hden hp ?_ ?_ (by omega)
    · rw [show 2 * (2 * 2 ^ f.fractionBits) - 1 = 4 * 2 ^ f.fractionBits - 1 by omega]
      rw [← hhalf, ← mul_assoc] at hlow
      linarith
    · rw [hpow, ← hhalf] at hlt
      have hpos : (0 : ℚ) < 2 ^ (q - 1) := zpow_pos (by norm_num) _
      push_cast at hlt ⊢
      linarith
  unfold roundedMagnitude
  rw [heq, hround, hm, show (q - f.minScale).toNat = (q - 1 - f.minScale).toNat + 1 by omega,
    Nat.add_mul]
  omega

/-- A quotient near to a number is rounded to it. -/
theorem round_of_near (negative : Bool) :
    (Binary.round negative num den : Binary f) = Binary.ofParts negative
      (min f.infinity ((q - f.minScale).toNat * 2 ^ f.fractionBits + m)) := by
  have hnum : num ≠ 0 := by
    rintro rfl
    rw [Nat.cast_zero, mul_eq_zero, Nat.cast_eq_zero] at hp
    have := hnear.pos hm
    rcases hp with rfl | rfl
    · exact absurd this (lt_irrefl _)
    · exact absurd hden (by decide)
  have hmagnitude : roundedMagnitude f num den =
      (q - f.minScale).toNat * 2 ^ f.fractionBits + m := by
    by_cases hscale : (2 : ℚ) ^ (q + f.fractionBits) ≤ p ∨ q = f.minScale
    · exact roundedMagnitude_of_scale h hm hden hp hnear hscale
    · rw [not_or, not_le] at hscale
      exact roundedMagnitude_below h hm hden hp hnear hscale.1 hscale.2
  unfold Binary.round
  rw [if_neg hnum, ← hmagnitude]
  simp only [Nat.shiftLeft_eq]
  rfl

end Rounded

end TreeCorpus.Number
