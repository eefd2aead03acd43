import TreeCorpus.Proofs.Number.Nearest
import TreeCorpus.Proofs.Number.Text

/-!
# The shortest digits are near

The first grid with a point in the interval of a number is found within the places of its format:
on the last of them the interval is wider than a step. So the shortest digits of a number are those
of a point that rounds to it (`exists_shortest_near`).
-/

namespace TreeCorpus.Number

/-! ## Points of a grid -/

namespace Interval

variable {i : Interval} {t : Tie} {n : Nat} {k : Int} {c : Nat}

/-- The point `c * 10 ^ k` lies in the interval, on an end only if the ends belong to it. -/
structure Admits (i : Interval) (k : Int) (c : Nat) : Prop where
  low : if i.closed then i.low * 10 ^ (-k).toNat ≤ c * (i.den * 10 ^ k.toNat)
    else i.low * 10 ^ (-k).toNat < c * (i.den * 10 ^ k.toNat)
  high : if i.closed then c * (i.den * 10 ^ k.toNat) ≤ i.high * 10 ^ (-k).toNat
    else c * (i.den * 10 ^ k.toNat) < i.high * 10 ^ (-k).toNat

/-- A point that is taken is one of the two next to the number. It fits on its side, and on the
other side is the number, which is inside. -/
theorem admits_of_onGrid (hden : 0 < i.den) (hlow : i.low < i.value) (hhigh : i.value < i.high)
    (h : i.onGrid t k = some c) : i.Admits k c := by
  have hup : 0 < 10 ^ (-k).toNat := Nat.pow_pos (by decide)
  have hunit : 0 < i.den * 10 ^ k.toNat := Nat.mul_pos hden (Nat.pow_pos (by decide))
  have hsplit := Nat.div_add_mod (i.value * 10 ^ (-k).toNat) (i.den * 10 ^ k.toNat)
  have hrem := Nat.mod_lt (i.value * 10 ^ (-k).toNat) hunit
  have hlow' := Nat.mul_lt_mul_of_pos_right hlow hup
  have hhigh' := Nat.mul_lt_mul_of_pos_right hhigh hup
  rw [Nat.mul_comm] at hsplit
  unfold onGrid at h
  simp only [Nat.pow_eq] at h
  constructor
  all_goals
    generalize i.value * 10 ^ (-k).toNat / (i.den * 10 ^ k.toNat) = q at *
    generalize i.value * 10 ^ (-k).toNat % (i.den * 10 ^ k.toNat) = r at *
    generalize i.den * 10 ^ k.toNat = unit at *
    have hsucc : (q + 1) * unit = q * unit + unit := Nat.succ_mul q unit
    cases hclosed : i.closed
    all_goals
      simp only [hclosed, Bool.false_eq_true, if_false, if_true] at h ⊢
      split at h
      · have hc := Option.some.inj h
        split at hc <;>
        · subst hc
          omega
      · split at h
        · obtain rfl := Option.some.inj h
          omega
        · split at h
          · obtain rfl := Option.some.inj h
            omega
          · exact absurd h (by simp)

/-- A grid as fine as the interval is below the number has a point in it. -/
theorem exists_onGrid (hden : 0 < i.den)
    (hfine : i.low * 10 ^ (-k).toNat + i.den * 10 ^ k.toNat ≤ i.value * 10 ^ (-k).toNat) :
    ∃ c, i.onGrid t k = some c := by
  have hunit : 0 < i.den * 10 ^ k.toNat := Nat.mul_pos hden (Nat.pow_pos (by decide))
  have hsplit := Nat.div_add_mod (i.value * 10 ^ (-k).toNat) (i.den * 10 ^ k.toNat)
  have hrem := Nat.mod_lt (i.value * 10 ^ (-k).toNat) hunit
  rw [Nat.mul_comm] at hsplit
  unfold onGrid
  simp only [Nat.pow_eq]
  generalize i.value * 10 ^ (-k).toNat / (i.den * 10 ^ k.toNat) = q at *
  have hlow : i.low * 10 ^ (-k).toNat < q * (i.den * 10 ^ k.toNat) := by omega
  cases i.closed
  all_goals
    simp only [Bool.false_eq_true, if_false, if_true, hlow, Nat.le_of_lt hlow, true_and]
    split <;> exact ⟨_, rfl⟩

/-- The first point that is found lies in the interval if there is one within the places tried. -/
theorem exists_admits_firstGrid (hden : 0 < i.den) (hlow : i.low < i.value)
    (hhigh : i.value < i.high) (h : ∃ c, i.onGrid t (k - n) = some c) :
    ∃ j c, i.firstGrid t (n + 1) k = Digits.ofScaled c j ∧ i.Admits j c := by
  induction n generalizing k with
  | zero =>
    obtain ⟨c, hc⟩ := h
    rw [Int.natCast_zero, Int.sub_zero] at hc
    refine ⟨k, c, ?_, admits_of_onGrid hden hlow hhigh hc⟩
    rw [firstGrid, hc]
  | succ n ih =>
    rw [firstGrid]
    cases hc : i.onGrid t k with
    | some c => exact ⟨k, c, rfl, admits_of_onGrid hden hlow hhigh hc⟩
    | none =>
      apply ih
      rwa [show k - 1 - (n : Int) = k - (n + 1 : Nat) by omega]

end Interval

/-! ## The interval of a number -/

section Finite

variable {f : Format} {m c : Nat} {q k : Int}

theorem ofFinite_ends (f : Format) (m : Nat) (q : Int) :
    (Interval.ofFinite f m q).low = (4 * m - placesBelow f m q) * 2 ^ q.toNat ∧
      (Interval.ofFinite f m q).high = (4 * m + 2) * 2 ^ q.toNat ∧
      (Interval.ofFinite f m q).closed = decide (m % 2 = 0) := by
  simp [Interval.ofFinite, placesBelow, Nat.shiftLeft_eq]

/-- An end of the interval of a number and a point of a grid, over one denominator. -/
theorem cast_scaled (a c : Nat) (q k : Int) :
    ((a * 2 ^ q.toNat * 10 ^ (-k).toNat : Nat) : ℚ) =
        a * 2 ^ q * (2 ^ (-q).toNat * 10 ^ (-k).toNat) ∧
      ((c * (4 * 2 ^ (-q).toNat * 10 ^ k.toNat) : Nat) : ℚ) =
        4 * (c * 10 ^ k) * (2 ^ (-q).toNat * 10 ^ (-k).toNat) := by
  have htwo : (2 : ℚ) ^ q * 2 ^ (-q).toNat = 2 ^ q.toNat := by
    exact_mod_cast zpow_mul_pow_neg (b := 2) (by decide) q
  have hten : (10 : ℚ) ^ k * 10 ^ (-k).toNat = 10 ^ k.toNat := by
    exact_mod_cast zpow_mul_pow_neg (b := 10) (by decide) k
  push_cast
  rw [← htwo, ← hten]
  constructor <;> ring

/-- A point in the interval of a number is near to it. -/
theorem near_of_admits (h : (Interval.ofFinite f m q).Admits k c) : Near f m q (c * 10 ^ k) := by
  obtain ⟨-, hden⟩ := ofFinite_value (f := f) m q
  obtain ⟨hlow, hhigh, hclosed⟩ := ofFinite_ends f m q
  have hpos : (0 : ℚ) < 2 ^ (-q).toNat * 10 ^ (-k).toNat := by positivity
  have hle (a : Nat) : a * 2 ^ q.toNat * 10 ^ (-k).toNat ≤ c * (4 * 2 ^ (-q).toNat * 10 ^ k.toNat) ↔
      (a : ℚ) * 2 ^ q ≤ 4 * (c * 10 ^ k) := by
    rw [← Nat.cast_le (α := ℚ), (cast_scaled a c q k).1, (cast_scaled a c q k).2,
      mul_le_mul_iff_left₀ hpos]
  have hge (a : Nat) : c * (4 * 2 ^ (-q).toNat * 10 ^ k.toNat) ≤ a * 2 ^ q.toNat * 10 ^ (-k).toNat ↔
      4 * (c * 10 ^ k) ≤ (a : ℚ) * 2 ^ q := by
    rw [← Nat.cast_le (α := ℚ), (cast_scaled a c q k).1, (cast_scaled a c q k).2,
      mul_le_mul_iff_left₀ hpos]
  obtain ⟨hfitsLow, hfitsHigh⟩ := h
  rw [hlow, hden, hclosed] at hfitsLow
  rw [hhigh, hden, hclosed] at hfitsHigh
  by_cases heven : m % 2 = 0
  · rw [decide_eq_true heven, if_pos rfl] at hfitsLow hfitsHigh
    exact ⟨(hle _).1 hfitsLow, (hge _).1 hfitsHigh, by omega⟩
  · rw [decide_eq_false heven, if_neg (by decide)] at hfitsLow hfitsHigh
    have hlt := lt_of_not_ge (mt (hge _).2 (Nat.not_le.2 hfitsLow))
    have hgt := lt_of_not_ge (mt (hle _).2 (Nat.not_le.2 hfitsHigh))
    exact ⟨hlt.le, hgt.le, fun _ => ⟨hlt, hgt⟩⟩

theorem atLeastPow_iff {num den : Nat} : AtLeastPow num den k ↔ den * (10 : ℚ) ^ k ≤ num := by
  unfold AtLeastPow
  rw [← Nat.not_lt, ← not_lt, scaled_lt_iff (by decide)]
  push_cast
  rfl

/-- The format has so many places that the last grid tried is finer than its numbers. -/
def Format.Fine (f : Format) : Prop := 4 * 2 ^ (f.fractionBits + 1) ≤ 10 ^ (f.decimalPlaces - 1)

theorem Format.fine_double : Format.double.Fine := by
  unfold Format.Fine
  decide +kernel

/-- The last grid tried is as fine as the numbers of the format. -/
theorem atLeastPow_last (hf : f.Fine) (hm : m < 2 ^ (f.fractionBits + 1)) {num den : Nat}
    (h : AtLeastPow (4 * m * num) den k) :
    AtLeastPow num den (k - (f.decimalPlaces - 1 : Nat)) := by
  rw [atLeastPow_iff] at h ⊢
  have hten : (0 : ℚ) < 10 ^ (f.decimalPlaces - 1) := by positivity
  have hpow :
      (10 : ℚ) ^ (k - (f.decimalPlaces - 1 : Nat)) * 10 ^ (f.decimalPlaces - 1) = 10 ^ k := by
    rw [← zpow_natCast, ← zpow_add₀ (by norm_num), Int.sub_add_cancel]
  have hplaces : ((4 * m : Nat) : ℚ) ≤ 10 ^ (f.decimalPlaces - 1) := by
    have hle : 4 * m ≤ 10 ^ (f.decimalPlaces - 1) := by
      unfold Format.Fine at hf
      omega
    exact_mod_cast hle
  rw [← mul_le_mul_iff_left₀ hten, mul_assoc, hpow]
  calc (den : ℚ) * 10 ^ k
    _ ≤ ((4 * m * num : Nat) : ℚ) := h
    _ = (4 * m : Nat) * num := by push_cast; rfl
    _ ≤ 10 ^ (f.decimalPlaces - 1) * num := by gcongr
    _ = num * 10 ^ (f.decimalPlaces - 1) := mul_comm _ _

/-- The number is inside its interval, by at least a quarter of its scale. -/
theorem ofFinite_inside (f : Format) (hm : 0 < m) (q : Int) :
    0 < (Interval.ofFinite f m q).den ∧
      (Interval.ofFinite f m q).low + 2 ^ q.toNat ≤ (Interval.ofFinite f m q).value ∧
      (Interval.ofFinite f m q).value < (Interval.ofFinite f m q).high := by
  obtain ⟨hvalue, hden⟩ := ofFinite_value (f := f) m q
  obtain ⟨hlow, hhigh, -⟩ := ofFinite_ends f m q
  have hplaces := placesBelow_le f m q
  have hpos : 1 ≤ placesBelow f m q := by
    unfold placesBelow
    split <;> omega
  have htwo : 0 < 2 ^ q.toNat := Nat.two_pow_pos _
  rw [hvalue, hden, hlow, hhigh, ← Nat.succ_mul]
  exact ⟨Nat.mul_pos (by decide) (Nat.two_pow_pos _), Nat.mul_le_mul_right _ (by omega),
    Nat.mul_lt_mul_of_pos_right (by omega) htwo⟩

/-- The shortest digits of a number are those of a point near to it. -/
theorem exists_shortest_near (hf : f.Fine) (hm : 0 < m) (hlt : m < 2 ^ (f.fractionBits + 1))
    (q : Int) (t : Tie) :
    ∃ k c, Binary.shortest f t m q = Digits.ofScaled c k ∧ Near f m q (c * 10 ^ k) := by
  obtain ⟨hden, hstep, hhigh⟩ := ofFinite_inside f hm q
  have htwo : 0 < 2 ^ q.toNat := Nat.two_pow_pos _
  have hpoint := atLeastPow_decimalPoint (show 0 < (Interval.ofFinite f m q).value by omega) hden
  have hplaces : f.decimalPlaces - 1 + 1 = f.decimalPlaces := Nat.succ_pred (Nat.succ_ne_zero _)
  unfold Binary.shortest Interval.shortest
  rw [← hplaces]
  generalize decimalPoint (Interval.ofFinite f m q).value (Interval.ofFinite f m q).den - 1 = first
    at *
  rw [(ofFinite_value m q).1] at hpoint
  have hlast := atLeastPow_last hf hlt hpoint
  have hgrid : ∃ c, (Interval.ofFinite f m q).onGrid t (first - (f.decimalPlaces - 1 : Nat)) =
      some c := by
    refine Interval.exists_onGrid hden (Nat.le_trans (Nat.add_le_add_left hlast _) ?_)
    rw [← Nat.add_mul]
    exact Nat.mul_le_mul_right _ hstep
  obtain ⟨k, c, hfirst, hadmits⟩ := Interval.exists_admits_firstGrid hden (by omega) hhigh hgrid
  exact ⟨k, c, hfirst, near_of_admits hadmits⟩

end Finite

end TreeCorpus.Number
