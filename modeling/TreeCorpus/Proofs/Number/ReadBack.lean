import TreeCorpus.Proofs.Number.Shortest

/-!
# Text that is read as the number

The text of a finite number, written out in full or with an exponent, has the value of its shortest
digits (`exists_parts_of_style`), and the decimal it spells is rounded to the number
(`roundDecimal_of_near`). So every text of a number is read as the number (`ofText?_of_write`).
-/

namespace TreeCorpus.Number

/-! ## The value of a text -/

theorem ofDigits_append_zeros (ds : List Char) (n : Nat) :
    ofDigits (ds ++ List.replicate n '0') = ofDigits ds * 10 ^ n := by
  show Nat.ofDigitChars 10 (ds ++ List.replicate n '0') 0 = Nat.ofDigitChars 10 ds 0 * 10 ^ n
  rw [Nat.ofDigitChars_append, Nat.ofDigitChars_replicate_zero, Nat.mul_comm]

theorem ofDigits_zeros_append (ds : List Char) (n : Nat) :
    ofDigits (List.replicate n '0' ++ ds) = ofDigits ds := by
  show Nat.ofDigitChars 10 (List.replicate n '0' ++ ds) 0 = Nat.ofDigitChars 10 ds 0
  rw [Nat.ofDigitChars_append, Nat.ofDigitChars_replicate_zero, Nat.mul_zero]

/-- The number that digits stand for. -/
def Digits.value (d : Digits) : ℚ := ofDigits d.digits * 10 ^ (d.point - d.digits.length)

/-- Zeros at the end are not missed. -/
theorem Digits.value_ofScaled (c : Nat) (k : Int) : (ofScaled c k).value = c * 10 ^ k := by
  have hzeros : ∀ d ∈ List.rtakeWhile (· == '0') (Nat.toDigits 10 c), d = '0' := fun d hd =>
    eq_of_beq (List.mem_rtakeWhile_imp (p := (· == '0')) hd)
  have hsplit : (ofScaled c k).digits ++
      List.replicate (List.rtakeWhile (· == '0') (Nat.toDigits 10 c)).length '0' =
      Nat.toDigits 10 c := by
    rw [← List.eq_replicate_of_mem hzeros]
    exact List.rdropWhile_append_rtakeWhile
  have hpoint : (ofScaled c k).point = k + (Nat.toDigits 10 c).length := rfl
  generalize (List.rtakeWhile (· == '0') (Nat.toDigits 10 c)).length = z at hsplit
  have hlength : (Nat.toDigits 10 c).length = (ofScaled c k).digits.length + z := by
    rw [← hsplit, List.length_append, List.length_replicate]
  have hc : c = ofDigits (ofScaled c k).digits * 10 ^ z := by
    rw [← ofDigits_append_zeros, hsplit]
    exact Nat.ofDigitChars_ten_toDigits.symm
  unfold value
  generalize (ofScaled c k).digits = ds at *
  rw [hpoint, hlength, show k + ((ds.length + z : Nat) : Int) - ds.length = k + z by omega,
    zpow_add₀ (by norm_num), zpow_natCast, hc]
  push_cast
  ring

end TreeCorpus.Number

namespace TreeCorpus.Json.Parts

open Number

variable {p : Parts}

/-- The power of ten that the last digit stands for. -/
def scale (p : Parts) : Int := (p.exponent.map exponentValue).getD 0 - p.fraction.length

/-- The number that the parts spell, its sign apart. -/
def value (p : Parts) : ℚ := ofDigits (p.whole ++ p.fraction) * 10 ^ p.scale

theorem exponent?_exponentChars (h : p.Valid) :
    Literal.exponent? p.exponentChars = some ((p.exponent.map exponentValue).getD 0) := by
  have hchars := exponent?_chars h
  cases he : p.exponent with
  | none =>
    rw [exponentChars, he]
    rfl
  | some e =>
    rw [he, if_neg (by simp [exponentChars, he])] at hchars
    exact hchars

theorem unsigned?_chars (h : p.Valid) (negative : Bool) :
    Literal.unsigned? negative (p.whole ++ (p.fractionChars ++ p.exponentChars)) =
      some (.decimal negative (ofDigits (p.whole ++ p.fraction)) p.scale) := by
  have hends : Ends [] := fun c hc => by simp at hc
  have hexp : NoDigit p.exponentChars := by
    have := noDigit_exponentChars (p := p) hends
    rwa [List.append_nil] at this
  have hfrac := noDigit_fractionChars (p := p) hexp
  unfold Literal.unsigned?
  simp only [takeWhile_isDigit h.whole_digits hfrac, dropWhile_isDigit h.whole_digits hfrac]
  have hvalue := exponent?_exponentChars h
  by_cases hf : p.fraction = []
  · have hpoint : ∀ cs, p.exponentChars ≠ '.' :: cs := by
      intro cs he
      have := head_exponentChars (p := p) hends '.' (by rw [he]; rfl)
      exact absurd rfl this.2
    rw [fractionChars, if_pos hf, List.nil_append]
    split
    · rename_i cs he
      exact absurd he (hpoint cs)
    · simp [hf, h.whole_ne_nil, hvalue, scale]
  · rw [fractionChars, if_neg hf, List.cons_append]
    simp [takeWhile_isDigit h.fraction_digits hexp, dropWhile_isDigit h.fraction_digits hexp, hf,
      hvalue, scale]

/-- A number in the format of JSON is a decimal literal. -/
theorem literal_chars (h : p.Valid) : Literal.ofChars? p.chars =
    some (.decimal p.negative (ofDigits (p.whole ++ p.fraction)) p.scale) := by
  obtain ⟨d, ds, hw, -, -⟩ := h.exists_whole_cons
  have hd : d.isDigit = true := h.whole_digits d (by rw [hw]; exact List.mem_cons_self)
  have hlower : d.toLower ≠ 'i' ∧ d.toLower ≠ 'n' := by
    have hbound := Char.isDigit_iff_toNat.1 hd
    have hself : d.toLower = d := by
      unfold Char.toLower
      rw [dif_neg]
      rintro ⟨hlow, -⟩
      have hle : 65 ≤ d.toNat := hlow
      have h9 : '9'.toNat = 57 := rfl
      omega
    rw [hself]
    constructor <;> rintro rfl <;> exact absurd hd (by decide)
  unfold Literal.ofChars?
  rw [takeSign_chars h]
  dsimp only
  rw [if_neg, if_neg, unsigned?_chars h]
  · rw [hw]
    intro heq
    exact hlower.2 (List.cons.inj heq).1
  · rw [hw]
    rintro (heq | heq)
    · exact hlower.1 (List.cons.inj heq).1
    · exact hlower.1 (List.cons.inj heq).1

end TreeCorpus.Json.Parts

namespace TreeCorpus.Number

open Json (Parts)

namespace Digits

variable {d : Digits} {negative : Bool}

/-- Written out in full, digits keep their value. -/
theorem value_positionalParts (d : Digits) (negative : Bool) :
    (d.positionalParts negative).value = d.value := by
  unfold Parts.value Parts.scale value
  rw [d.exponent_positionalParts]
  unfold positionalParts
  split
  · rename_i hpoint
    dsimp only
    rw [← List.append_assoc, show ['0'] = List.replicate 1 '0' from rfl,
      List.replicate_append_replicate, ofDigits_zeros_append, List.length_append, List.length_replicate]
    congr 2
    simp
    omega
  · by_cases hlong : (d.digits.length : Int) ≤ d.point
    · rw [if_pos hlong]
      dsimp only
      rw [List.append_assoc, show ['0'] = List.replicate 1 '0' from rfl,
        List.replicate_append_replicate, ofDigits_append_zeros, List.length_replicate]
      push_cast
      rw [mul_assoc, ← zpow_natCast, ← zpow_add₀ (by norm_num)]
      congr 2
      simp
      omega
    · rw [if_neg hlong]
      dsimp only
      rw [List.take_append_drop, List.length_drop]
      congr 2
      simp
      omega

theorem negative_positionalParts (d : Digits) (negative : Bool) :
    (d.positionalParts negative).negative = negative := by
  unfold positionalParts
  split
  · rfl
  · split <;> rfl

/-- Written out in full, digits have one behind the point. -/
theorem fraction_positionalParts_ne_nil (h : d.digits ≠ []) :
    (d.positionalParts negative).fraction ≠ [] := by
  unfold positionalParts
  split
  · simp [h]
  · split
    · simp
    · rename_i hlong
      rw [← List.length_pos_iff, List.length_drop]
      omega

/-- Written with an exponent, digits keep their value. -/
theorem value_scientificParts (h : d.digits ≠ []) :
    (d.scientificParts negative).value = d.value := by
  have hpos := List.length_pos_iff.2 h
  have hexponent : ∀ e ∈ (d.scientificParts negative).exponent,
      Parts.exponentValue e = d.point - 1 := d.exponentValue_scientificParts
  have hexp : ((d.scientificParts negative).exponent.map Parts.exponentValue).getD 0 =
      d.point - 1 := hexponent _ rfl
  unfold Parts.value Parts.scale value
  rw [hexp]
  unfold scientificParts
  dsimp only
  rw [List.take_append_drop, List.length_drop]
  congr 2
  omega

end Digits

/-! ## Reading a text -/

section Reading

variable {f : Format} {x : Binary f} {m : Nat} {q e : Int}

/-- A format whose numbers are told apart by its places and lie above `10 ^ (-2 ^ exponentBits)`. -/
structure Format.Regular (f : Format) : Prop where
  fine : f.Fine
  minScale_ge : -((2 ^ f.exponentBits : Nat) : Int) ≤ f.minScale

theorem Format.regular_double : Format.double.Regular where
  fine := Format.fine_double
  minScale_ge := by decide

/-- The significand and the scale of a number, and its pattern made from them. -/
theorem canonical_of_kind (h : x.kind = .finite m q) :
    Canonical f m q ∧ x.magnitude = (q - f.minScale).toNat * 2 ^ f.fractionBits + m ∧
      x.magnitude < f.infinity := by
  have hfinite : x.magnitude < f.infinity := of_decide_eq_true (isFinite_iff.2 ⟨m, q, h⟩)
  have hsplit := Nat.div_add_mod x.magnitude (2 ^ f.fractionBits)
  have hrem := Nat.mod_lt x.magnitude (Nat.two_pow_pos f.fractionBits)
  have hpow := Nat.pow_succ (n := 2) (m := f.fractionBits)
  rw [Nat.mul_comm] at hsplit
  unfold Binary.kind at h
  simp only [Nat.one_shiftLeft] at h
  rw [if_neg (by omega), if_neg (by omega)] at h
  split at h
  · rename_i hzero
    obtain ⟨rfl, rfl⟩ := Kind.finite.inj h
    rw [hzero, Nat.zero_mul] at hsplit
    refine ⟨⟨Int.le_refl _, by omega, .inr rfl⟩, ?_, hfinite⟩
    rw [Int.sub_self, Int.toNat_zero, Nat.zero_mul]
    exact hsplit.symm
  · rename_i hpos
    obtain ⟨rfl, rfl⟩ := Kind.finite.inj h
    refine ⟨⟨by omega, by omega, .inl (Nat.le_add_right _ _)⟩, ?_, hfinite⟩
    rw [add_sub_cancel_left, Int.toNat_natCast, ← Nat.add_assoc, ← Nat.succ_mul,
      Nat.succ_eq_add_one, Nat.sub_add_cancel (Nat.pos_of_ne_zero hpos)]
    exact hsplit.symm

theorem ofParts_magnitude (x : Binary f) : Binary.ofParts x.negative x.magnitude = x := by
  unfold Binary.ofParts Binary.negative Binary.magnitude
  rw [BitVec.ofNat_toNat, BitVec.setWidth_setWidth_of_le _ (Nat.le_refl _)]
  exact congrArg Binary.mk (BitVec.cons_msb_setWidth x.bits)

/-- A finite number is below `2 ^ 2 ^ exponentBits`. -/
theorem scale_le (hcan : Canonical f m q)
    (hlt : (q - f.minScale).toNat * 2 ^ f.fractionBits + m < f.infinity) :
    q + f.fractionBits + 1 ≤ (2 ^ f.exponentBits : Nat) := by
  have hmin := hcan.minScale_le
  have hexp : (q - f.minScale).toNat < 2 ^ f.exponentBits - 1 := by
    unfold Format.infinity at hlt
    rw [Nat.shiftLeft_eq, Nat.one_shiftLeft] at hlt
    exact Nat.lt_of_mul_lt_mul_right (Nat.lt_of_le_of_lt (Nat.le_add_right _ _) hlt)
  have hhalf : 0 < 2 ^ (f.exponentBits - 1) := Nat.two_pow_pos _
  have hscale : f.minScale = 2 - (2 ^ (f.exponentBits - 1) : Nat) - (f.fractionBits : Int) := by
    unfold Format.minScale
    rw [Nat.one_shiftLeft]
    rfl
  omega

theorem cast_decimalLength_bounds {n : Nat} (hn : 0 < n) :
    (10 : ℚ) ^ ((decimalLength n : Int) - 1) ≤ n ∧ (n : ℚ) < 10 ^ (decimalLength n : Int) := by
  have hpos : 0 < decimalLength n := Nat.length_toDigits_pos
  have hlow : ((10 ^ (decimalLength n - 1) : Nat) : ℚ) ≤ n :=
    Nat.cast_le.2 (pow_decimalLength_le hn)
  have hhigh : (n : ℚ) < ((10 ^ decimalLength n : Nat) : ℚ) :=
    Nat.cast_lt.2 (lt_pow_decimalLength n)
  push_cast at hlow hhigh
  rw [show (decimalLength n : Int) - 1 = ((decimalLength n - 1 : Nat) : Int) by omega, zpow_natCast,
    zpow_natCast]
  exact ⟨hlow, hhigh⟩

theorem ten_zpow_eq (n : Int) : (10 : ℚ) ^ n = 2 ^ n * 5 ^ n := by
  rw [← mul_zpow]
  norm_num

/-- A decimal near to a number has its point inside the bounds of the format. -/
theorem order_bounds {sig : Nat} (hf : f.Regular) (hcan : Canonical f m q) (hm : 0 < m)
    (hq : q + f.fractionBits + 1 ≤ (2 ^ f.exponentBits : Nat)) (hsig : 0 < sig)
    (hnear : Near f m q (sig * 10 ^ e)) :
    -((2 ^ f.exponentBits : Nat) : Int) ≤ decimalLength sig + e ∧
      decimalLength sig + e ≤ (2 ^ f.exponentBits : Nat) := by
  have hten : (0 : ℚ) < 10 ^ e := zpow_pos (by norm_num) e
  obtain ⟨hlow, hhigh⟩ := cast_decimalLength_bounds hsig
  have hmin := hcan.minScale_le
  have hreg := hf.minScale_ge
  constructor
  · by_contra hlt
    rw [Int.not_le] at hlt
    have hhalf : (2 : ℚ) ^ (q - 1) * 2 = 2 ^ q := by
      rw [← zpow_add_one₀ (by norm_num), Int.sub_add_cancel]
    have hplaces := placesBelow_le f m q
    have hnumber := hnear.half_low 1 (by omega)
    have hbelow : (sig : ℚ) * 10 ^ e < 2 ^ (q - 1) := by
      calc (sig : ℚ) * 10 ^ e
        _ < 10 ^ (decimalLength sig : Int) * 10 ^ e := by gcongr
        _ = 2 ^ (decimalLength sig + e) * 5 ^ (decimalLength sig + e) := by
          rw [← zpow_add₀ (by norm_num), ten_zpow_eq]
        _ ≤ 2 ^ (decimalLength sig + e) * 1 := by
          gcongr
          exact zpow_le_one_of_nonpos₀ (by norm_num) (by omega)
        _ ≤ 2 ^ (q - 1) := by
          rw [mul_one]
          exact zpow_le_zpow_right₀ (by norm_num) (by omega)
    rw [Nat.cast_one, one_mul] at hnumber
    linarith
  · by_contra hlt
    rw [Int.not_le] at hlt
    have habove : (2 : ℚ) ^ (q + f.fractionBits + 1) ≤ sig * 10 ^ e := by
      calc (2 : ℚ) ^ (q + f.fractionBits + 1)
        _ ≤ 2 ^ ((decimalLength sig : Int) - 1 + e) * 1 := by
          rw [mul_one]
          exact zpow_le_zpow_right₀ (by norm_num) (by omega)
        _ ≤ 2 ^ ((decimalLength sig : Int) - 1 + e) * 5 ^ ((decimalLength sig : Int) - 1 + e) := by
          gcongr
          exact one_le_zpow₀ (by norm_num) (by omega)
        _ = 10 ^ ((decimalLength sig : Int) - 1) * 10 ^ e := by
          rw [← ten_zpow_eq, zpow_add₀ (by norm_num)]
        _ ≤ sig * 10 ^ e := by gcongr
    exact absurd (hnear.lt_zpow hcan) (not_lt_of_ge habove)

theorem roundDecimal_zero (negative : Bool) (e : Int) :
    (Literal.roundDecimal negative 0 e : Binary f) = Binary.zero negative := by
  unfold Literal.roundDecimal
  exact if_pos (.inl rfl)

/-- A decimal near to a number reads as the number. -/
theorem roundDecimal_of_near {sig : Nat} (hf : f.Regular) (hx : x.kind = .finite m q) (hm : 0 < m)
    (hnear : Near f m q (sig * 10 ^ e)) : Literal.roundDecimal x.negative sig e = x := by
  obtain ⟨hcan, hmagnitude, hfinite⟩ := canonical_of_kind hx
  have hsig : 0 < sig := by
    rcases Nat.eq_zero_or_pos sig with rfl | hpos
    · have := hnear.pos hm
      rw [Nat.cast_zero, zero_mul] at this
      exact absurd this (lt_irrefl _)
    · exact hpos
  obtain ⟨hlow, hhigh⟩ :=
    order_bounds hf hcan hm (scale_le hcan (hmagnitude ▸ hfinite)) hsig hnear
  have hquotient : (sig : ℚ) * 10 ^ e * (10 ^ (-e).toNat : Nat) = (sig * 10 ^ e.toNat : Nat) := by
    push_cast
    rw [mul_assoc]
    congr 1
    exact_mod_cast zpow_mul_pow_neg (b := 10) (by decide) e
  unfold Literal.roundDecimal
  simp only [Nat.one_shiftLeft, Nat.pow_eq]
  rw [if_neg (by omega), if_neg (by omega),
    round_of_near hcan hm (Nat.pow_pos (by decide)) hquotient hnear, ← hmagnitude,
    Nat.min_eq_right (Nat.le_of_lt hfinite), ofParts_magnitude]

/-- What a style writes for proper digits are the parts of a number with their value. A style that
writes all places out writes no exponent. -/
theorem exists_parts_of_style {d : Digits} (h : d.Proper) (t : TextStyle) (negative : Bool) :
    ∃ p : Parts, p.Valid ∧ p.negative = negative ∧ p.value = d.value ∧
      p.chars = (if negative then ['-'] else []) ++ t.write d ∧
      (t.full = none → p.exponent = none ∧ p.fraction ≠ []) := by
  by_cases hpositional : t.write d = d.positional
  · rw [hpositional]
    exact ⟨_, h.valid_positionalParts, d.negative_positionalParts negative,
      d.value_positionalParts negative, d.chars_positionalParts h.ne_nil,
      fun _ => ⟨d.exponent_positionalParts, d.fraction_positionalParts_ne_nil h.ne_nil⟩⟩
  · have hscientific : t.full ≠ none ∧ t.write d = d.scientific := by
      unfold TextStyle.write at hpositional ⊢
      cases hfull : t.full with
      | none => simp [hfull] at hpositional
      | some bounds =>
        simp only [hfull] at hpositional ⊢
        split at hpositional
        · exact absurd rfl hpositional
        · rename_i hout
          exact ⟨by simp, if_neg hout⟩
    rw [hscientific.2]
    exact ⟨_, h.valid_scientificParts, rfl, d.value_scientificParts h.ne_nil,
      d.chars_scientificParts, fun hfull => absurd hfull hscientific.1⟩

/-- The text of a finite number is made of parts whose decimal is rounded to the number. -/
theorem exists_parts_of_write (hf : f.Regular) {t : TextStyle} {s : String}
    (h : x.write t = some s) :
    ∃ p : Parts, p.Valid ∧ p.negative = x.negative ∧ s.toList = p.chars ∧
      Literal.roundDecimal x.negative (ofDigits (p.whole ++ p.fraction)) p.scale = x ∧
      (t.full = none → p.exponent = none ∧ p.fraction ≠ []) := by
  unfold Binary.write at h
  split at h
  · rename_i m q hx
    obtain rfl := Option.some.inj h
    obtain ⟨hcan, hmagnitude, -⟩ := canonical_of_kind hx
    rcases Nat.eq_zero_or_pos m with rfl | hm
    · obtain rfl : q = f.minScale :=
        hcan.pow_le_or.resolve_left (Nat.not_le.2 (Nat.two_pow_pos _))
      rw [Int.sub_self, Int.toNat_zero, Nat.zero_mul, Nat.add_zero] at hmagnitude
      refine ⟨⟨x.negative, ['0'], ['0'], none⟩, (modest_zero x.negative).valid, rfl, ?_, ?_,
        fun _ => ⟨rfl, by simp⟩⟩
      · rw [if_pos rfl]
        cases x.negative <;> rfl
      · rw [show ofDigits (['0'] ++ ['0']) = 0 from rfl, roundDecimal_zero, Binary.zero,
          ← hmagnitude, ofParts_magnitude]
    · obtain ⟨k, c, hdigits, hnear⟩ := exists_shortest_near hf.fine hm hcan.lt_pow q t.tie
      have hc : 0 < c := by
        rcases Nat.eq_zero_or_pos c with rfl | hpos
        · exact absurd (hnear.pos hm) (by simp)
        · exact hpos
      obtain ⟨p, hvalid, hnegative, hvalue, hchars, hfull⟩ :=
        exists_parts_of_style (Digits.proper_ofScaled hc k) t x.negative
      refine ⟨p, hvalid, hnegative, ?_, ?_, hfull⟩
      · rw [if_neg (Nat.ne_of_gt hm), hdigits, hchars, String.toList_ofList]
        cases x.negative <;> rfl
      · rw [Digits.value_ofScaled] at hvalue
        rw [← hvalue] at hnear
        exact roundDecimal_of_near hf hx hm hnear
  · exact absurd h (by simp)

/-- Every text of a number reads as the number. -/
theorem ofText?_of_write (hf : f.Regular) {t : TextStyle} {s : String} (h : x.write t = some s) :
    Binary.ofText? s = some x := by
  obtain ⟨p, hvalid, hnegative, hchars, hround, -⟩ := exists_parts_of_write hf h
  unfold Binary.ofText?
  rw [hchars, Parts.literal_chars hvalid, hnegative]
  exact congrArg some hround

end Reading

end TreeCorpus.Number
