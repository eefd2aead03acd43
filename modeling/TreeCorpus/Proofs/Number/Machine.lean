import Mathlib.Algebra.GroupWithZero.Nat
import TreeCorpus.Number.Arithmetic

/-!
# Products of machine numbers

A machine number is unpacked to a significand and an exponent, and rounding leaves the exponent of a
product not far above the sum of the two (`below_roundWithAccuracy`). So a product of two numbers
whose exponent fields are not too large is finite (`isFinite_mul`).
-/

namespace TreeCorpus.Number

open Float.Model Float.Model.UnpackedFloat

/-- Zero, or a significand of some bits with an exponent up to `e`. -/
def Below (bits : Nat) (e : Int) : UnpackedFloat → Prop
  | .zero _ => True
  | .finite _ m k _ => m < 2 ^ bits ∧ k ≤ e
  | _ => False

theorem Below.mono {bits : Nat} {e f : Int} {u : UnpackedFloat} (h : Below bits e u) (hef : e ≤ f) :
    Below bits f u := by
  cases u with
  | infinity s => exact h.elim
  | notANumber => exact h.elim
  | zero s => trivial
  | finite s m k hm => exact ⟨h.1, Int.le_trans h.2 hef⟩

/-! ## Packing -/

theorem bias_binary64 : Format.binary64.exponentBias = 1023 := by decide

theorem unpackExponent_toNat (b : BitVec Format.binary64.numBits) :
    (unpackExponent b).toNat = b.toNat / 2 ^ 52 % 2 ^ 11 := by
  unfold unpackExponent
  rw [BitVec.toNat_cast, BitVec.extractLsb_toNat, Nat.shiftRight_eq_div_pow]
  rfl

/-- A packed number has an exponent field that belongs to its exponent. -/
theorem unpackExponent_pack_le {bits E : Nat} {u : UnpackedFloat} (hE : E < 2047)
    (h : Below bits (E - 1075) u) :
    (unpackExponent (UnpackedFloat.pack Format.binary64 u)).toNat ≤ E := by
  cases u with
  | infinity s => exact h.elim
  | notANumber => exact h.elim
  | zero s =>
    show (unpackExponent (packedZero Format.binary64 s)).toNat ≤ E
    simp [packedZero]
  | finite s m k hm =>
    obtain ⟨-, hk⟩ := h
    have hbiased : (k + Format.binary64.exponentBias + 52).toNat ≤ E := by
      rw [bias_binary64]
      omega
    delta UnpackedFloat.pack
    dsimp only
    rw [if_neg (by omega)]
    split
    · rw [unpackExponent_packComponents, BitVec.toNat_ofNat, Nat.mod_eq_of_lt (by omega)]
      exact hbiased
    · simp

theorem below_unpack {E : Nat} {b : BitVec Format.binary64.numBits} (h1 : 1 ≤ E) (hE : E < 2047)
    (h : (unpackExponent b).toNat ≤ E) :
    Below 53 (E - 1075) (UnpackedFloat.unpack Format.binary64 b) := by
  have hne : unpackExponent b ≠ -1#_ := by
    intro he
    rw [he] at h
    simp at h
    omega
  have hm : (unpackMantissa b).toNat < 2 ^ 52 := (unpackMantissa b).isLt
  unfold UnpackedFloat.unpack
  dsimp only
  rw [if_neg hne, bias_binary64]
  by_cases h0 : unpackExponent b = 0#_
  · rw [if_pos h0]
    by_cases hzero : unpackMantissa b = 0#_
    · rw [dif_pos hzero]
      trivial
    · rw [dif_neg hzero]
      refine ⟨by omega, ?_⟩
      rw [h0]
      simp
      omega
  · rw [if_neg h0]
    refine ⟨BitVec.isLt _, ?_⟩
    omega

/-! ## Rounding -/

theorem mantissa_shiftRight_le (em : ExtendedMantissa) (k : Nat) :
    (em >>> k).mantissa ≤ em.mantissa := by
  induction k with
  | zero => exact Nat.le_refl _
  | succ k ih => exact Nat.le_trans (Nat.div_le_self _ 2) ih

theorem roundedMantissa_le (em : ExtendedMantissa) : em.roundedMantissa ≤ em.mantissa + 1 := by
  obtain ⟨m, r, s⟩ := em
  cases r <;> cases s <;>
    simp [ExtendedMantissa.roundedMantissa, ExtendedMantissa.accuracy, Accuracy.roundToNearestEven]
  omega

/-- Shifting drops digits and raises the exponent by as many as are too many. -/
theorem shiftToTargetExponent_le {m bits : Nat} {k e : Int} (hm : m < 2 ^ bits) (hk : k ≤ e)
    (hb : 53 ≤ bits) :
    (shiftToTargetExponent Format.binary64 m k .exact).1.mantissa ≤ m ∧
      (shiftToTargetExponent Format.binary64 m k .exact).2 ≤ max (e + bits - 53) (-1074) := by
  have hlog : m.log2 < bits := by
    rcases Nat.eq_zero_or_pos m with rfl | hpos
    · simp
      omega
    · exact (Nat.log2_lt (by omega)).2 hm
  have htarget : Format.binary64.targetExponent (totalExponent m k) =
      max (m.log2 + 1 + k - 53) (-1074) := rfl
  constructor
  · exact mantissa_shiftRight_le _ _
  · show k + ((Format.binary64.targetExponent (totalExponent m k) - k).toNat : Int) ≤ _
    rw [htarget]
    omega

theorem below_roundWithAccuracy {m bits : Nat} {k e : Int} (s : Sign) (hm : m < 2 ^ bits)
    (hk : k ≤ e) (hb : 53 ≤ bits) :
    Below (bits + 1) (max (e + 2 * bits - 105) (bits - 1126))
      (roundWithAccuracy Format.binary64 s m k .exact) := by
  obtain ⟨hm₁, hk₁⟩ := shiftToTargetExponent_le hm hk hb
  have hround := roundedMantissa_le (shiftToTargetExponent Format.binary64 m k .exact).1
  have hlt :
      (shiftToTargetExponent Format.binary64 m k .exact).1.roundedMantissa < 2 ^ (bits + 1) := by
    have := Nat.one_le_two_pow (n := bits)
    rw [Nat.pow_succ]
    omega
  obtain ⟨hm₂, hk₂⟩ := shiftToTargetExponent_le hlt hk₁ (by omega)
  have hresult {n : Nat} {x : Int} (hn : n < 2 ^ (bits + 1))
      (hx : x ≤ max (e + 2 * bits - 105) (bits - 1126)) :
      Below (bits + 1) (max (e + 2 * bits - 105) (bits - 1126))
        (if h : n = 0 then .zero s else .finite s n x (Nat.pos_of_ne_zero h)) := by
    by_cases h : n = 0
    · rw [dif_pos h]
      trivial
    · rw [dif_neg h]
      exact ⟨hn, hx⟩
  exact hresult (Nat.lt_of_le_of_lt hm₂ hlt) (Int.le_trans hk₂ (by omega))

/-! ## Products -/

theorem Below.mul {a b : Nat} {e f : Int} {u v : UnpackedFloat} (hu : Below a e u) (hv : Below b f v)
    (hab : 53 ≤ a + b) :
    Below (a + b + 1) (max (e + f + 2 * (a + b : Nat) - 105) ((a + b : Nat) - 1126))
      (UnpackedFloat.mul Format.binary64 u v) := by
  cases u with
  | infinity s => exact hu.elim
  | notANumber => exact hu.elim
  | zero s => cases v <;> first | exact hv.elim | trivial
  | finite s m k hm => cases v with
    | infinity s => exact hv.elim
    | notANumber => exact hv.elim
    | zero s => trivial
    | finite s' m' k' hm' =>
      refine below_roundWithAccuracy _ ?_ (Int.add_le_add hu.2 hv.2) hab
      rw [Nat.pow_add]
      exact Nat.mul_lt_mul'' hu.1 hv.1

/-- The exponent field of a number of 64 bits is at most `E`. -/
def ExponentUpTo (E : Nat) (x : Double) : Prop := x.magnitude < (E + 1) * 2 ^ 52

theorem magnitude_eq (x : Double) : x.magnitude = x.bits.toNat % 2 ^ 63 := BitVec.toNat_setWidth ..

theorem below_toFloat {E : Nat} {x : Double} (h1 : 1 ≤ E) (hE : E < 2047) (h : ExponentUpTo E x) :
    Below 53 (E - 1075) (Double.toFloat x).toModel.unpack := by
  have hbits : (UInt64.ofNat x.bits.toNat).toBitVec.toNat = x.bits.toNat :=
    Nat.mod_eq_of_lt x.bits.isLt
  have hexp : (@unpackExponent Format.binary64 (UInt64.ofNat x.bits.toNat).toBitVec).toNat ≤ E := by
    unfold ExponentUpTo at h
    rw [magnitude_eq] at h
    rw [unpackExponent_toNat, hbits]
    omega
  exact below_unpack h1 hE (unpackExponent_pack_le hE (below_unpack h1 hE hexp))

theorem isFinite_ofFloat {E bits : Nat} {u : UnpackedFloat} (hE : E < 2047)
    (h : Below bits (E - 1075) u) : (Double.ofFloat ⟨Float.Model.pack u⟩).isFinite = true := by
  have hexp := unpackExponent_pack_le hE h
  rw [unpackExponent_toNat] at hexp
  have hbits : (Double.ofFloat ⟨Float.Model.pack u⟩).bits.toNat =
      (UnpackedFloat.pack Format.binary64 u).toNat :=
    Nat.mod_eq_of_lt (BitVec.isLt _)
  have hinf : Format.double.infinity = 2047 * 2 ^ 52 := by decide
  unfold Binary.isFinite
  rw [magnitude_eq, hbits, hinf, decide_eq_true_iff]
  omega

/-- The product of two numbers that are not too large is finite. -/
theorem isFinite_mul {E F : Nat} {x y : Double} (hx : ExponentUpTo E x) (hy : ExponentUpTo F y)
    (hE : 1 ≤ E) (hE' : E < 2047) (hF : 1 ≤ F) (hF' : F < 2047) (h : E + F ≤ 3000) :
    (x * y).isFinite = true := by
  have hmul := (below_toFloat hE hE' hx).mul (below_toFloat hF hF' hy) (by decide)
  exact isFinite_ofFloat (E := 2046) (by decide) (hmul.mono (by omega))

/-! ## Whole numbers -/

theorem magnitude_ofParts_le (f : Format) (negative : Bool) (m : Nat) :
    (Binary.ofParts negative m : Binary f).magnitude ≤ m := by
  unfold Binary.ofParts Binary.magnitude
  rw [BitVec.setWidth_cons, BitVec.toNat_ofNat]
  exact Nat.mod_le _ _

theorem roundDiv_le (num den : Nat) : roundDiv num den ≤ num / den + 1 := by
  unfold roundDiv
  dsimp only
  split <;> omega

theorem div_le_roundDiv (num den : Nat) : num / den ≤ roundDiv num den := by
  unfold roundDiv
  dsimp only
  split <;> omega

/-- The grid on which a whole number has 53 places. -/
theorem scaleFor_one {n : Nat} (h : n ≠ 0) : Binary.scaleFor .double n 1 = (n.log2 : Int) - 52 := by
  have hle : 2 ^ n.log2 ≤ n := Nat.log2_self_le h
  have hmin : Format.double.minScale = -1074 := by decide
  have hfits : ¬ n <<< (-(n.log2 : Int)).toNat < 1 <<< (n.log2 : Int).toNat := by
    rw [show (-(n.log2 : Int)).toNat = 0 by omega, Int.toNat_natCast, Nat.one_shiftLeft,
      Nat.shiftLeft_zero]
    omega
  unfold Binary.scaleFor
  simp only [show Nat.log2 1 = 0 by decide, Int.natCast_zero, Int.sub_zero, if_neg hfits, hmin]
  omega

/-- A whole number of `b` bits has an exponent field of at most `b + 1023`. -/
theorem exponentUpTo_ofNat {n b : Nat} (h : n < 2 ^ b) :
    ExponentUpTo (b + 1023) (Binary.ofNat n) := by
  unfold ExponentUpTo Binary.ofNat Binary.round
  split
  · exact Nat.lt_of_le_of_lt (magnitude_ofParts_le _ _ _) (by omega)
  · rename_i h0
    have hlog : n.log2 < b := (Nat.log2_lt h0).2 h
    have hmin : Format.double.minScale = -1074 := by decide
    have hplaces : roundDiv (n <<< (-((n.log2 : Int) - 52)).toNat)
        (1 <<< ((n.log2 : Int) - 52).toNat) ≤ 2 ^ 53 := by
      have hn : n < 2 ^ (n.log2 + 1) := Nat.lt_log2_self
      have hpow : 2 ^ (n.log2 + 1) * 2 ^ (-((n.log2 : Int) - 52)).toNat =
          2 ^ 53 * 2 ^ ((n.log2 : Int) - 52).toNat := by
        rw [← Nat.pow_add, ← Nat.pow_add]
        congr 1
        omega
      have hlt : n <<< (-((n.log2 : Int) - 52)).toNat <
          2 ^ 53 * 1 <<< ((n.log2 : Int) - 52).toNat := by
        rw [Nat.shiftLeft_eq, Nat.one_shiftLeft, ← hpow]
        exact Nat.mul_lt_mul_of_pos_right hn (Nat.two_pow_pos _)
      have := Nat.div_lt_of_lt_mul (Nat.mul_comm _ _ ▸ hlt)
      have := roundDiv_le (n <<< (-((n.log2 : Int) - 52)).toNat)
        (1 <<< ((n.log2 : Int) - 52).toNat)
      omega
    refine Nat.lt_of_le_of_lt (magnitude_ofParts_le _ _ _) (Nat.lt_of_le_of_lt
      (Nat.min_le_right _ _) ?_)
    rw [scaleFor_one h0, hmin]
    generalize roundDiv _ _ = places at hplaces ⊢
    rw [Nat.shiftLeft_eq]
    show ((n.log2 : Int) - 52 - -1074).toNat * 2 ^ 52 + places < _
    omega

end TreeCorpus.Number
