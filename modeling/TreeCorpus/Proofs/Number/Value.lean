import Mathlib.Algebra.Order.Field.Basic
import Mathlib.Algebra.Order.Field.Power
import TreeCorpus.Proofs.Number.Exact
import TreeCorpus.Proofs.Number.ReadBack

/-!
# The value of a pattern

A finite pattern stands for an exact number, its significand times a power of two. Patterns are
compared by their bits, and this compares the numbers they stand for (`less_iff_value_lt`): a larger
scale has a larger significand, so the bits of two magnitudes are ordered as the magnitudes are
(`Canonical.magnitude_lt_iff`).
-/

namespace TreeCorpus.Number

variable {K : Type} [Field K] {f : Format} {m m' : Nat} {q q' : Int} {x y : Binary f}

/-- The number that a finite pattern stands for; zero for the other patterns. -/
def Binary.value (K : Type) [Field K] (x : Binary f) : K :=
  match x.kind with
  | .finite m q => if x.negative then -(m * 2 ^ q) else m * 2 ^ q
  | _ => 0

theorem value_of_kind (h : x.kind = .finite m q) :
    x.value K = if x.negative then -((m : K) * 2 ^ q) else m * 2 ^ q := by
  unfold Binary.value
  rw [h]

/-- Both zeros stand for zero. -/
theorem value_zero (negative : Bool) : (Binary.zero negative : Binary f).value K = 0 := by
  have hmag : (Binary.zero negative : Binary f).magnitude = 0 :=
    Nat.le_zero.1 (magnitude_ofParts_le f negative 0)
  have hkind : (Binary.zero negative : Binary f).kind = .infinite ∨
      (Binary.zero negative : Binary f).kind = .finite 0 f.minScale := by
    unfold Binary.kind
    rw [hmag]
    by_cases hinf : 0 = f.infinity
    · exact Or.inl (by simp [← hinf])
    · exact Or.inr (by simp [hinf])
  rcases hkind with hkind | hkind
  · unfold Binary.value
    rw [hkind]
  · rw [value_of_kind hkind]
    simp

variable [LinearOrder K] [IsStrictOrderedRing K]

namespace Canonical

/-- A number of a larger scale is larger, and so are its bits. -/
theorem lt_of_scale_lt (h : Canonical f m q) (h' : Canonical f m' q') (hq : q < q') :
    (m : K) * 2 ^ q < m' * 2 ^ q' ∧ (q - f.minScale).toNat * 2 ^ f.fractionBits + m <
      (q' - f.minScale).toNat * 2 ^ f.fractionBits + m' := by
  have hmin := h.minScale_le
  have hm := h.lt_pow
  have hm' : 2 ^ f.fractionBits ≤ m' := h'.pow_le_or.resolve_right (by omega)
  constructor
  · calc (m : K) * 2 ^ q < (2 ^ (f.fractionBits + 1) : Nat) * 2 ^ q := by
          gcongr
      _ = (2 ^ f.fractionBits : Nat) * 2 ^ (q + 1) := by
          push_cast
          rw [pow_succ, zpow_add_one₀ two_ne_zero]
          ring
      _ ≤ m' * 2 ^ q' := by
          gcongr
          · exact one_le_two
          · omega
  · have hscale : (q - f.minScale).toNat + 1 ≤ (q' - f.minScale).toNat := by omega
    have hmul := Nat.mul_le_mul_right (2 ^ f.fractionBits) hscale
    rw [pow_succ] at hm
    rw [Nat.add_mul] at hmul
    omega

/-- The bits of two magnitudes are ordered as the magnitudes are. -/
theorem magnitude_lt_iff (h : Canonical f m q) (h' : Canonical f m' q') :
    (q - f.minScale).toNat * 2 ^ f.fractionBits + m <
      (q' - f.minScale).toNat * 2 ^ f.fractionBits + m' ↔ (m : K) * 2 ^ q < m' * 2 ^ q' := by
  rcases lt_trichotomy q q' with hq | rfl | hq
  · have hlt := lt_of_scale_lt (K := K) h h' hq
    exact iff_of_true hlt.2 hlt.1
  · rw [Nat.add_lt_add_iff_left, mul_lt_mul_iff_left₀ (zpow_pos two_pos q), Nat.cast_lt]
  · have hlt := lt_of_scale_lt (K := K) h' h hq
    exact iff_of_false hlt.2.not_gt hlt.1.not_gt

theorem magnitude_pos_iff (h : Canonical f m q) :
    0 < (q - f.minScale).toNat * 2 ^ f.fractionBits + m ↔ 0 < (m : K) * 2 ^ q := by
  have hzero : Canonical f 0 f.minScale := ⟨Int.le_refl _, Nat.two_pow_pos _, Or.inr rfl⟩
  have hlt := hzero.magnitude_lt_iff (K := K) h
  rwa [Int.sub_self, Int.toNat_zero, Nat.zero_mul, Nat.zero_add, Nat.cast_zero, zero_mul] at hlt

end Canonical

/-- Two magnitudes with signs are ordered as the bits with the same signs are. -/
theorem signed_lt_iff {a b : K} {i j : Nat} (n n' : Bool) (ha : 0 < i ↔ 0 < a) (hb : 0 < j ↔ 0 < b)
    (hab : i < j ↔ a < b) (hba : j < i ↔ b < a) (ha0 : 0 ≤ a) (hb0 : 0 ≤ b) :
    (if n then -(i : Int) else i) < (if n' then -(j : Int) else j) ↔
      (if n then -a else a) < (if n' then -b else b) := by
  cases n <;> cases n'
  · exact Int.ofNat_lt.trans hab
  · refine iff_of_false (not_lt.2 ?_) (not_lt.2 ?_)
    · exact (Int.neg_nonpos_of_nonneg (Int.natCast_nonneg j)).trans (Int.natCast_nonneg i)
    · exact (neg_nonpos.2 hb0).trans ha0
  · have hnat : -(i : Int) < j ↔ 0 < i ∨ 0 < j := by omega
    have hamount : -a < b ↔ 0 < a ∨ 0 < b := by
      constructor
      · intro h
        by_contra hnot
        rw [not_or, not_lt, not_lt] at hnot
        linarith
      · rintro (h | h) <;> linarith
    rw [← ha, ← hb, ← hnat] at hamount
    exact hamount.symm
  · exact (neg_lt_neg_iff.trans (Int.ofNat_lt.trans hba)).trans neg_lt_neg_iff.symm

/-- Comparing two finite patterns compares the numbers that they stand for. -/
theorem key_lt_iff_value_lt (hx : x.isFinite = true) (hy : y.isFinite = true) :
    x.key < y.key ↔ x.value K < y.value K := by
  obtain ⟨m, q, hkx⟩ := isFinite_iff.1 hx
  obtain ⟨m', q', hky⟩ := isFinite_iff.1 hy
  obtain ⟨hcx, hmx, -⟩ := canonical_of_kind hkx
  obtain ⟨hcy, hmy, -⟩ := canonical_of_kind hky
  unfold Binary.key
  rw [value_of_kind hkx, value_of_kind hky, hmx, hmy]
  exact signed_lt_iff _ _ hcx.magnitude_pos_iff hcy.magnitude_pos_iff (hcx.magnitude_lt_iff hcy)
    (hcy.magnitude_lt_iff hcx) (by positivity) (by positivity)

theorem less_iff_value_lt (hx : x.isFinite = true) (hy : y.isFinite = true) :
    x.less y = true ↔ x.value K < y.value K := by
  unfold Binary.less
  exact decide_eq_true_iff.trans (key_lt_iff_value_lt hx hy)

/-- A finite pattern stands for a positive number when its key is positive. -/
theorem key_pos_iff_value_pos (hx : x.isFinite = true) : 0 < x.key ↔ 0 < x.value K := by
  obtain ⟨m, q, hkind⟩ := isFinite_iff.1 hx
  obtain ⟨hcan, hmag, -⟩ := canonical_of_kind hkind
  have hamount : (0 : K) ≤ m * 2 ^ q := by positivity
  unfold Binary.key
  rw [value_of_kind hkind, hmag]
  cases x.negative
  · exact Int.natCast_pos.trans (hcan.magnitude_pos_iff (K := K))
  · refine iff_of_false (not_lt.2 ?_) (not_lt.2 (neg_nonpos.2 hamount))
    exact Int.neg_nonpos_of_nonneg (Int.natCast_nonneg _)

end TreeCorpus.Number
