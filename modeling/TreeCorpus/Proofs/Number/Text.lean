import Mathlib.Data.List.DropRight
import TreeCorpus.Number.Shortest
import TreeCorpus.Proofs.Json.Decode
import TreeCorpus.Proofs.Number.Machine

/-!
# The text of a number

The shortest digits of a number are those of a multiple of a power of ten that is not zero and not
far above the number (`Interval.exists_shortest_eq`). So the text of a finite number of 32 bits is a
number in the format of JSON, short enough before its point and with a small exponent
(`exists_parts_of_isFinite`), and such a text always reads as some number (`exists_single?`).
-/

namespace TreeCorpus.Number

open Json (Parts natParts)

/-! ## Digits -/

/-- Digits without a zero in front. -/
structure Digits.Proper (d : Digits) : Prop where
  ne_nil : d.digits ≠ []
  isDigit : ∀ c ∈ d.digits, c.isDigit = true
  head?_ne : d.digits.head? ≠ some '0'

theorem Digits.proper_ofScaled {c : Nat} (h : 0 < c) (k : Int) : (ofScaled c k).Proper := by
  have hstart : (ofScaled c k).digits <+: Nat.toDigits 10 c := List.rdropWhile_prefix _ _
  have hhead : (Nat.toDigits 10 c).head? ≠ some '0' := fun h0 =>
    absurd (head?_toDigits c h0) (by omega)
  have hne : (ofScaled c k).digits ≠ [] := by
    intro hnil
    obtain ⟨d, ds, hd⟩ := List.exists_cons_of_ne_nil (Nat.toDigits_ne_nil (n := c) (b := 10))
    have hzero := List.rdropWhile_eq_nil_iff.1 hnil d (by rw [hd]; exact List.mem_cons_self)
    rw [hd, eq_of_beq hzero] at hhead
    exact hhead rfl
  refine ⟨hne, fun d hd => isDigit_of_mem_toDigits d (hstart.subset hd), ?_⟩
  obtain ⟨d, ds, hd⟩ := List.exists_cons_of_ne_nil hne
  obtain ⟨t, ht⟩ := hstart
  rw [← ht, hd] at hhead
  rw [hd]
  exact hhead

/-! ## The point of a quotient -/

/-- A quotient is at least `10 ^ k`. -/
def AtLeastPow (num den : Nat) (k : Int) : Prop := den * 10 ^ k.toNat ≤ num * 10 ^ (-k).toNat

theorem AtLeastPow.mono {num den : Nat} {j k : Int} (h : AtLeastPow num den j) (hkj : k ≤ j) :
    AtLeastPow num den k :=
  calc den * 10 ^ k.toNat
    _ ≤ den * 10 ^ j.toNat :=
      Nat.mul_le_mul_left _ (Nat.pow_le_pow_right (by decide) (by omega))
    _ ≤ num * 10 ^ (-j).toNat := h
    _ ≤ num * 10 ^ (-k).toNat :=
      Nat.mul_le_mul_left _ (Nat.pow_le_pow_right (by decide) (by omega))

theorem pow_decimalLength_le {n : Nat} (h : 0 < n) : 10 ^ (decimalLength n - 1) ≤ n := by
  unfold decimalLength
  rcases Nat.eq_zero_or_pos ((Nat.toDigits 10 n).length - 1) with h0 | h0
  · rw [h0]
    exact h
  · have := (Nat.length_toDigits_le_iff (n := n) (b := 10) (by decide) h0).not
    omega

theorem lt_pow_decimalLength (n : Nat) : n < 10 ^ decimalLength n :=
  (Nat.length_toDigits_le_iff (by decide) Nat.length_toDigits_pos).1 (Nat.le_refl _)

/-- The point stands right behind the first digit of a quotient. -/
theorem atLeastPow_decimalPoint {num den : Nat} (hn : 0 < num) (hd : 0 < den) :
    AtLeastPow num den (decimalPoint num den - 1) := by
  unfold AtLeastPow decimalPoint
  split
  · rename_i hle
    have hq : 0 < num / den := Nat.div_pos hle hd
    have hpow := pow_decimalLength_le hq
    have hpos : 0 < decimalLength (num / den) := Nat.length_toDigits_pos
    rw [show ((decimalLength (num / den) : Int) - 1).toNat = decimalLength (num / den) - 1 by omega,
      show (-((decimalLength (num / den) : Int) - 1)).toNat = 0 by omega, Nat.pow_zero, Nat.mul_one]
    exact Nat.le_trans (Nat.mul_le_mul_left den hpow) (Nat.mul_div_le num den)
  · generalize hL : decimalLength ((den + num - 1) / num - 1) = L
    have hlt := lt_pow_decimalLength ((den + num - 1) / num - 1)
    rw [hL] at hlt
    have hup : den + num - 1 < (10 ^ L + 1) * num :=
      (Nat.div_lt_iff_lt_mul hn).1 (by omega)
    rw [Nat.add_mul, Nat.one_mul, Nat.mul_comm] at hup
    rw [show (1 - (L : Int) - 1).toNat = 0 by omega, show (-(1 - (L : Int) - 1)).toNat = L by omega,
      Nat.pow_zero, Nat.mul_one]
    omega

/-- Where a quotient below `10 ^ n` has its point. -/
theorem decimalPoint_le {num den n : Nat} (hn : 0 < n) (h : num < den * 10 ^ n) :
    decimalPoint num den ≤ n := by
  unfold decimalPoint
  split
  · have := (Nat.length_toDigits_le_iff (b := 10) (by decide) hn).2 (Nat.div_lt_of_lt_mul h)
    exact Int.ofNat_le.2 this
  · omega

/-! ## The shortest digits -/

namespace Interval

variable {i : Interval} {t : Tie} {k : Int} {c : Nat}

/-- A multiple of `10 ^ k` that is not zero and not far above the number. -/
structure Candidate (i : Interval) (k : Int) (c : Nat) : Prop where
  pos : 0 < c
  le : c ≤ i.value * 10 ^ (-k).toNat / (i.den * 10 ^ k.toNat) + 1

theorem div_pos_of_atLeastPow (hd : 0 < i.den) (hk : AtLeastPow i.value i.den k) :
    0 < i.value * 10 ^ (-k).toNat / (i.den * 10 ^ k.toNat) :=
  Nat.div_pos hk (Nat.mul_pos hd (Nat.pow_pos (by decide)))

theorem candidate_of_onGrid (hd : 0 < i.den) (hk : AtLeastPow i.value i.den k)
    (h : i.onGrid t k = some c) : i.Candidate k c := by
  have hpos := div_pos_of_atLeastPow hd hk
  have hc : c = i.value * Nat.pow 10 (-k).toNat / (i.den * Nat.pow 10 k.toNat) ∨
      c = i.value * Nat.pow 10 (-k).toNat / (i.den * Nat.pow 10 k.toNat) + 1 := by
    unfold onGrid at h
    dsimp only at h
    generalize i.value * Nat.pow 10 (-k).toNat / (i.den * Nat.pow 10 k.toNat) = q at h ⊢
    cases hclosed : i.closed
    all_goals
      simp only [hclosed, Bool.false_eq_true, if_false, if_true] at h
      split at h
      · have hc := Option.some.inj h
        split at hc <;> omega
      · split at h
        · exact Or.inl (Option.some.inj h).symm
        · split at h
          · exact Or.inr (Option.some.inj h).symm
          · exact absurd h (by simp)
  rcases hc with rfl | rfl
  · exact ⟨hpos, Nat.le_succ _⟩
  · exact ⟨Nat.succ_pos _, Nat.le_refl _⟩

/-- The shortest digits are those of a candidate on some grid. -/
theorem exists_firstGrid_eq (hd : 0 < i.den) (hk : AtLeastPow i.value i.den k) (places : Nat) :
    ∃ j c, i.firstGrid t places k = Digits.ofScaled c j ∧ j ≤ k ∧ i.Candidate j c := by
  induction places generalizing k with
  | zero =>
    have hpos := div_pos_of_atLeastPow hd hk
    exact ⟨k, _, rfl, Int.le_refl k, Nat.lt_of_lt_of_le hpos (div_le_roundDiv _ _),
      roundDiv_le _ _⟩
  | succ places ih =>
    rw [firstGrid]
    split
    · rename_i c hc
      exact ⟨k, c, rfl, Int.le_refl k, candidate_of_onGrid hd hk hc⟩
    · obtain ⟨j, c, heq, hj, hc⟩ := ih (hk.mono (show k - 1 ≤ k by omega))
      exact ⟨j, c, heq, by omega, hc⟩

theorem exists_shortest_eq (hd : 0 < i.den) (hv : 0 < i.value) (places : Nat) :
    ∃ j c, i.shortest t places = Digits.ofScaled c j ∧ j ≤ decimalPoint i.value i.den - 1 ∧
      i.Candidate j c :=
  exists_firstGrid_eq hd (atLeastPow_decimalPoint hv hd) places

/-- A candidate has as many digits as the number and its grid allow, and one more. -/
theorem Candidate.length_toDigits_le (h : i.Candidate k c) {n : Nat}
    (hn : i.value < i.den * 10 ^ n) : (Nat.toDigits 10 c).length ≤ n + (-k).toNat + 1 := by
  refine (Nat.length_toDigits_le_iff (by decide) (Nat.succ_pos _)).2 ?_
  have hquot : i.value * 10 ^ (-k).toNat / (i.den * 10 ^ k.toNat) < 10 ^ (n + (-k).toNat) := by
    apply Nat.div_lt_of_lt_mul
    have hscaled :=
      Nat.mul_lt_mul_of_pos_right hn (Nat.pow_pos (n := (-k).toNat) (show 0 < 10 by decide))
    rw [Nat.mul_assoc, ← Nat.pow_add] at hscaled
    refine Nat.lt_of_lt_of_le hscaled ?_
    rw [Nat.mul_right_comm]
    exact Nat.le_mul_of_pos_right _ (Nat.pow_pos (by decide))
  have hle : c ≤ 10 ^ (n + (-k).toNat) := Nat.le_trans h.le hquot
  exact Nat.lt_of_le_of_lt hle (Nat.pow_lt_pow_succ (by decide))

end Interval

/-! ## Writing the digits -/

namespace Digits

variable {d : Digits} {negative : Bool}

/-- The parts of digits that are written out in full. -/
def positionalParts (d : Digits) (negative : Bool) : Parts :=
  if d.point ≤ 0 then ⟨negative, ['0'], List.replicate (-d.point).toNat '0' ++ d.digits, none⟩
  else if (d.digits.length : Int) ≤ d.point then
    ⟨negative, d.digits ++ List.replicate (d.point.toNat - d.digits.length) '0', ['0'], none⟩
  else ⟨negative, d.digits.take d.point.toNat, d.digits.drop d.point.toNat, none⟩

/-- The parts of digits that are written with an exponent. -/
def scientificParts (d : Digits) (negative : Bool) : Parts :=
  ⟨negative, d.digits.take 1, d.digits.drop 1,
    some (d.point - 1 < 0, Nat.toDigits 10 (d.point - 1).natAbs)⟩

theorem chars_positionalParts (h : d.digits ≠ []) :
    (d.positionalParts negative).chars = (if negative then ['-'] else []) ++ d.positional := by
  unfold positionalParts positional
  split
  · simp [Parts.chars, Parts.signChars, Parts.fractionChars, Parts.exponentChars, h]
  · by_cases hl : (d.digits.length : Int) ≤ d.point
    · simp [Parts.chars, Parts.signChars, Parts.fractionChars, Parts.exponentChars, hl]
    · have hdrop : d.digits.drop d.point.toNat ≠ [] := by
        rw [Ne, List.drop_eq_nil_iff]
        omega
      simp only [Parts.chars, Parts.signChars, Parts.fractionChars, Parts.exponentChars,
        if_neg hdrop, if_neg hl, List.append_nil]

theorem chars_scientificParts (d : Digits) :
    (d.scientificParts negative).chars = (if negative then ['-'] else []) ++ d.scientific := by
  unfold scientificParts scientific
  simp [Parts.chars, Parts.signChars, Parts.fractionChars, Parts.exponentChars]

/-- A start of proper digits with more digits after it is the whole part of a number. -/
theorem Proper.whole (h : d.Proper) {n : Nat} (hn : 0 < n) (zeros : List Char) :
    d.digits.take n ++ zeros ≠ [] ∧ (d.digits.take n ++ zeros).head? ≠ some '0' := by
  obtain ⟨c, cs, hc⟩ := List.exists_cons_of_ne_nil h.ne_nil
  obtain ⟨n, rfl⟩ : ∃ m, n = m + 1 := ⟨n - 1, by omega⟩
  have hhead := h.head?_ne
  rw [hc] at hhead ⊢
  exact ⟨by simp, hhead⟩

theorem Proper.valid_positionalParts (h : d.Proper) : (d.positionalParts negative).Valid := by
  have hzeros {n : Nat} : ∀ c ∈ List.replicate n '0', c.isDigit = true := by
    intro c hc
    rw [List.eq_of_mem_replicate hc]
    decide
  have hzero : ∀ c ∈ ['0'], c.isDigit = true := List.forall_mem_singleton.2 rfl
  have hnone : ∀ e ∈ (none : Option (Bool × List Char)), e.2 ≠ [] ∧
      ∀ c ∈ e.2, c.isDigit = true := fun e he => by simp at he
  unfold positionalParts
  split
  · refine ⟨by simp, hzero, fun _ => rfl, fun c hc => ?_, hnone⟩
    rcases List.mem_append.1 hc with hc | hc
    · exact hzeros c hc
    · exact h.isDigit c hc
  · have hpoint : 0 < d.point.toNat := by omega
    split
    · obtain ⟨hne, hhead⟩ := h.whole hpoint (List.replicate (d.point.toNat - d.digits.length) '0')
      rw [List.take_of_length_le (by omega)] at hne hhead
      refine ⟨hne, fun c hc => ?_, fun h0 => absurd h0 hhead, hzero, hnone⟩
      rcases List.mem_append.1 hc with hc | hc
      · exact h.isDigit c hc
      · exact hzeros c hc
    · obtain ⟨hne, hhead⟩ := h.whole hpoint []
      rw [List.append_nil] at hne hhead
      exact ⟨hne, fun c hc => h.isDigit c (List.mem_of_mem_take hc), fun h0 => absurd h0 hhead,
        fun c hc => h.isDigit c (List.mem_of_mem_drop hc), hnone⟩

theorem Proper.valid_scientificParts (h : d.Proper) : (d.scientificParts negative).Valid := by
  obtain ⟨hne, hhead⟩ := h.whole (n := 1) (by decide) []
  rw [List.append_nil] at hne hhead
  refine ⟨hne, fun c hc => h.isDigit c (List.mem_of_mem_take hc), fun h0 => absurd h0 hhead,
    fun c hc => h.isDigit c (List.mem_of_mem_drop hc), fun e he => ?_⟩
  obtain rfl := Option.some.inj he
  exact ⟨Nat.toDigits_ne_nil, isDigit_of_mem_toDigits⟩

/-- As many digits stand before the point as it says, at least one. -/
theorem length_whole_positionalParts {n : Nat} (hn : 0 < n) (h : d.point ≤ n) :
    (d.positionalParts negative).whole.length ≤ n := by
  unfold positionalParts
  split
  · exact hn
  · split
    · simp only [List.length_append, List.length_replicate]
      omega
    · simp only [List.length_take]
      omega

theorem exponent_positionalParts (d : Digits) : (d.positionalParts negative).exponent = none := by
  unfold positionalParts
  split
  · rfl
  · split <;> rfl

theorem exponentValue_scientificParts (d : Digits) :
    ∀ e ∈ (d.scientificParts negative).exponent, Parts.exponentValue e = d.point - 1 := by
  intro e he
  obtain rfl := Option.some.inj he
  have hvalue : ofDigits (Nat.toDigits 10 (d.point - 1).natAbs) = (d.point - 1).natAbs :=
    Nat.ofDigitChars_ten_toDigits
  unfold Parts.exponentValue
  dsimp only
  rw [hvalue]
  split <;> simp only [decide_eq_true_eq] at * <;> omega

end Digits

/-! ## Numbers of 32 bits -/

/-- A finite number of 32 bits has a significand of 24 bits and is below `2 ^ 128`. -/
theorem kind_single {x : Single} {m : Nat} {q : Int} (h : x.kind = .finite m q) :
    m < 2 ^ 24 ∧ q ≤ 104 := by
  have hinf : Format.single.infinity = 255 * 2 ^ 23 := by decide
  have hmin : Format.single.minScale = -149 := by decide
  unfold Binary.kind at h
  simp only [hinf, hmin, Nat.one_shiftLeft] at h
  split at h
  · exact absurd h (by simp)
  · split at h
    · exact absurd h (by simp)
    · split at h
      · obtain ⟨rfl, rfl⟩ := Kind.finite.inj h
        omega
      · obtain ⟨rfl, rfl⟩ := Kind.finite.inj h
        omega

/-- A number is finite when it has a significand. -/
theorem isFinite_iff {f : Format} {x : Binary f} :
    x.isFinite = true ↔ ∃ m q, x.kind = .finite m q := by
  unfold Binary.isFinite Binary.kind
  dsimp only
  rw [decide_eq_true_iff]
  split
  · simp
    omega
  · split
    · simp
      omega
    · split
      · simp
        omega
      · simp
        omega

theorem ofFinite_value {f : Format} (m : Nat) (q : Int) :
    (Interval.ofFinite f m q).value = 4 * m * 2 ^ q.toNat ∧
      (Interval.ofFinite f m q).den = 4 * 2 ^ (-q).toNat := by
  simp [Interval.ofFinite, Nat.shiftLeft_eq]

/-- The shortest digits of a number of 32 bits. -/
theorem shortest_single {m : Nat} {q : Int} (t : Tie) (hm : 0 < m) (hlt : m < 2 ^ 24)
    (hq : q ≤ 104) :
    (Binary.shortest .single t m q).Proper ∧ (Binary.shortest .single t m q).point ≤ 78 := by
  obtain ⟨hvalue, hden⟩ := ofFinite_value (f := .single) m q
  have hvpos : 0 < (Interval.ofFinite .single m q).value := by
    rw [hvalue]
    exact Nat.mul_pos (by omega) (Nat.two_pow_pos _)
  have hdpos : 0 < (Interval.ofFinite .single m q).den := by
    rw [hden]
    exact Nat.mul_pos (by decide) (Nat.two_pow_pos _)
  -- the number is below `2 ^ 128`, which is below `10 ^ 39`
  have hbound : (Interval.ofFinite .single m q).value <
      (Interval.ofFinite .single m q).den * 10 ^ 39 := by
    have hpow : 2 ^ q.toNat ≤ 2 ^ 104 := Nat.pow_le_pow_right (by decide) (by omega)
    have hden' : 4 * 10 ^ 39 ≤ (Interval.ofFinite .single m q).den * 10 ^ 39 := by
      rw [hden]
      exact Nat.mul_le_mul_right _ (Nat.le_mul_of_pos_right 4 (Nat.two_pow_pos _))
    calc (Interval.ofFinite .single m q).value
      _ ≤ 4 * m * 2 ^ 104 := hvalue ▸ Nat.mul_le_mul_left _ hpow
      _ < 4 * 10 ^ 39 := by omega
      _ ≤ _ := hden'
  obtain ⟨j, c, heq, hj, hc⟩ := Interval.exists_shortest_eq (t := t) hdpos hvpos
    Format.single.decimalPlaces
  have hpoint := decimalPoint_le (by decide) hbound
  unfold Binary.shortest
  rw [heq]
  refine ⟨Digits.proper_ofScaled hc.pos j, ?_⟩
  have hdigits := hc.length_toDigits_le hbound
  show j + ((Nat.toDigits 10 c).length : Int) ≤ 78
  omega

/-- A number in the format of JSON with a short whole part and a small exponent. -/
structure Modest (p : Parts) : Prop where
  valid : p.Valid
  length_whole : p.whole.length ≤ 13
  exponent_le : ∀ e ∈ p.exponent, Parts.exponentValue e ≤ 77

theorem modest_zero (negative : Bool) : Modest ⟨negative, ['0'], ['0'], none⟩ where
  valid := ⟨by simp, by simp, fun _ => rfl, by simp, fun e he => by simp at he⟩
  length_whole := by simp
  exponent_le e he := by simp at he

/-- The style for 32 bits writes proper digits as a modest number. -/
theorem exists_parts_of_proper {d : Digits} (h : d.Proper) (hpoint : d.point ≤ 78)
    (negative : Bool) :
    ∃ p, Modest p ∧
      p.chars = (if negative then ['-'] else []) ++ TextStyle.single.write d := by
  have hwrite : TextStyle.single.write d =
      if -6 < d.point ∧ d.point ≤ 13 then d.positional else d.scientific := rfl
  rw [hwrite]
  by_cases hfull : -6 < d.point ∧ d.point ≤ 13
  · rw [if_pos hfull]
    exact ⟨d.positionalParts negative, ⟨h.valid_positionalParts,
      d.length_whole_positionalParts (by decide) hfull.2,
      fun e he => absurd he (by rw [d.exponent_positionalParts]; simp)⟩,
      d.chars_positionalParts h.ne_nil⟩
  · rw [if_neg hfull]
    refine ⟨d.scientificParts negative, ⟨h.valid_scientificParts, ?_, fun e he => ?_⟩,
      d.chars_scientificParts⟩
    · exact Nat.le_trans (List.length_take_le _ _) (by decide)
    · rw [d.exponentValue_scientificParts e he]
      omega

/-- The text of a finite number of 32 bits. -/
theorem exists_parts_of_isFinite {x : Single} (h : x.isFinite = true) :
    ∃ p, Modest p ∧ x.text? = some (String.ofList p.chars) := by
  obtain ⟨m, q, hk⟩ := isFinite_iff.1 h
  obtain ⟨hm, hq⟩ := kind_single hk
  unfold Single.text? Binary.write
  simp only [hk]
  by_cases h0 : m = 0
  · refine ⟨_, modest_zero x.negative, ?_⟩
    rw [if_pos h0]
    cases x.negative <;> rfl
  · obtain ⟨hproper, hpoint⟩ := shortest_single TextStyle.single.tie (by omega) hm hq
    obtain ⟨p, hp, hchars⟩ := exists_parts_of_proper hproper hpoint x.negative
    refine ⟨p, hp, ?_⟩
    rw [if_neg h0, hchars]
    cases x.negative <;> rfl

theorem text?_eq_none {x : Single} (h : x.isFinite = false) : x.text? = none := by
  unfold Single.text? Binary.write
  split
  · rename_i m q hk
    rw [isFinite_iff.2 ⟨m, q, hk⟩] at h
    exact absurd h (by decide)
  · rfl

/-! ## Reading the text -/

theorem ofDigitChars_lt {ds : List Char} (h : ∀ c ∈ ds, c.isDigit = true) (n : Nat) :
    Nat.ofDigitChars 10 ds n < 10 ^ ds.length * (n + 1) := by
  induction ds generalizing n with
  | nil => simp
  | cons d ds ih =>
    have hd : d.toNat ≤ 57 := (Char.isDigit_iff_toNat.1 (h d List.mem_cons_self)).2
    have hrest := ih (fun c hc => h c (List.mem_cons_of_mem d hc)) (10 * n + (d.toNat - '0'.toNat))
    rw [Nat.ofDigitChars_cons, List.length_cons, Nat.pow_succ, Nat.mul_assoc]
    refine Nat.lt_of_lt_of_le hrest (Nat.mul_le_mul_left _ ?_)
    show 10 * n + (d.toNat - 48) + 1 ≤ 10 * (n + 1)
    omega

/-- Scaling a size by a power of ten that is not too large is possible. -/
theorem exists_scaled? {n : Nat} {e : Int} (hn : n < sizeLimit) (he : e ≤ 77) :
    ∃ x, Json.scaled? n e = some x := by
  unfold Json.scaled?
  dsimp only
  split
  · split
    · exact ⟨_, rfl⟩
    · exact ⟨_, rfl⟩
  · have hpow : Nat.pow 10 e.toNat < 2 ^ 256 :=
      Nat.lt_of_le_of_lt (Nat.pow_le_pow_right (by decide) (show e.toNat ≤ 77 by omega)) (by decide)
    have hfinite := isFinite_mul (exponentUpTo_ofNat (show n < 2 ^ 64 from hn))
      (exponentUpTo_ofNat hpow) (by decide) (by decide) (by decide) (by decide) (by decide)
    rw [if_pos (show e.toNat ≤ Json.scaleStep by unfold Json.scaleStep; omega)]
    exact ⟨_, if_pos hfinite⟩

theorem exists_scale? {s : Json.Spelling} {n : Nat} {shift : Int} (hn : n < sizeLimit)
    (hshift : shift ≤ 0) (he : s.exponent.getD 0 ≤ 77) : ∃ x, s.scale? n shift = some x := by
  have hlimit : Json.exponentLimit = 2147483647 := by decide
  unfold Json.Spelling.scale?
  dsimp only
  split
  · rename_i hbig
    rw [if_neg (by omega)]
    exact ⟨_, rfl⟩
  · obtain ⟨x, hx⟩ := exists_scaled? hn (show shift + s.exponent.getD 0 ≤ 77 by omega)
    rw [hx]
    exact ⟨_, rfl⟩

/-- A modest number reads as some number. -/
theorem exists_single? {p : Parts} (h : Modest p) :
    ∃ x, (Json.number p.chars).single? = some x := by
  have hwhole : Nat.ofDigitChars 10 p.whole 0 < sizeLimit := by
    have hlt := ofDigitChars_lt h.valid.whole_digits 0
    have hpow : 10 ^ p.whole.length ≤ 10 ^ 13 := Nat.pow_le_pow_right (by decide) h.length_whole
    have hlimit : 10 ^ 13 < sizeLimit := by decide
    omega
  have hexp : (p.exponent.map Parts.exponentValue).getD 0 ≤ 77 := by
    cases he : p.exponent with
    | none => decide
    | some e => exact h.exponent_le e he
  obtain ⟨x, hx⟩ : ∃ x, (Json.number p.chars).numeral? = some x := by
    rw [Json.numeral?_chars h.valid]
    unfold Json.Spelling.numeral?
    dsimp only
    rw [Json.leadingSize_of_lt hwhole]
    dsimp only
    split
    · exact ⟨_, rfl⟩
    · exact exists_scale? (Json.leadingSize_lt hwhole _) (by omega) hexp
  unfold Json.single?
  rw [hx]
  cases x with
  | integer n => exact ⟨_, rfl⟩
  | double x => exact ⟨_, rfl⟩

end TreeCorpus.Number
