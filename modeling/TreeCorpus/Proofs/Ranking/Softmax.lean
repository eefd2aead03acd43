import Mathlib.Algebra.BigOperators.Ring.List
import Mathlib.Algebra.Order.BigOperators.Group.List
import Mathlib.Algebra.Order.Field.Basic
import TreeCorpus.Proofs.Number.Exact
import TreeCorpus.Ranking.Softmax

/-!
# Shares in exact arithmetic

Without rounding, the largest value has the exponential one, so the sum of the exponentials is at
least one (`one_le_sum_exponentials`). The shares are then a strictly increasing function of the
values, positive and with the sum one (`exists_share`), and they depend on the distances between the
values only (`softmax_map_add`).
-/

namespace TreeCorpus.Number

/-- A positive and strictly increasing function that is one at zero. -/
class ExactExponential (K : Type) [Field K] [LinearOrder K] where
  exp : K → K
  strictMono : StrictMono exp
  pos : ∀ x, 0 < exp x
  exp_zero : exp 0 = 1

instance {K : Type} [Field K] [LinearOrder K] [ExactExponential K] : Exponential K where
  exp := ExactExponential.exp
  larger := max

end TreeCorpus.Number

namespace TreeCorpus.Ranking

open Number

variable {K : Type} [Field K] [LinearOrder K] [ExactExponential K] {vs : List K}

theorem exponentials_cons (v : K) (vs : List K) : exponentials (v :: vs) =
    (v :: vs).map fun x => ExactExponential.exp (x - vs.foldl Exponential.larger v) :=
  rfl

/-- The exponentials are those of the distances to the largest value. -/
theorem exists_exponentials_eq (h : vs ≠ []) : ∃ top ∈ vs, (∀ x ∈ vs, x ≤ top) ∧
    exponentials vs = vs.map fun x => ExactExponential.exp (x - top) := by
  obtain ⟨v, vs, rfl⟩ := List.exists_cons_of_ne_nil h
  have htop : (v :: vs).max? = some (vs.foldl max v) := List.max?_cons'
  obtain ⟨hmem, hmax⟩ := List.max?_eq_some_iff.1 htop
  exact ⟨_, hmem, hmax, rfl⟩

theorem exponential_pos {x : K} (h : x ∈ exponentials vs) : 0 < x := by
  cases vs with
  | nil => exact absurd h List.not_mem_nil
  | cons v vs =>
    obtain ⟨y, -, rfl⟩ := List.mem_map.1 h
    exact ExactExponential.pos _

variable [IsStrictOrderedRing K]

/-- The sum that the exponentials are divided by is never zero. -/
theorem one_le_sum_exponentials (h : vs ≠ []) : 1 ≤ sum (exponentials vs) := by
  obtain ⟨top, htop, -, heq⟩ := exists_exponentials_eq h
  have hone : (1 : K) ∈ exponentials vs := by
    rw [heq, ← ExactExponential.exp_zero, ← sub_self top]
    exact List.mem_map_of_mem htop
  rw [sum_eq_sum]
  exact List.single_le_sum (fun x hx => (exponential_pos hx).le) 1 hone

/-- The shares are made from the values by one strictly increasing function. -/
theorem exists_share (h : vs ≠ []) : ∃ share : K → K, StrictMono share ∧
    softmax vs = vs.map share ∧ (∀ x ∈ vs, 0 < share x ∧ share x ≤ 1) ∧
    (vs.map share).sum = 1 := by
  have hone := one_le_sum_exponentials h
  obtain ⟨top, -, -, heq⟩ := exists_exponentials_eq h
  set total := sum (exponentials vs) with htotal
  have hpos : 0 < total := zero_lt_one.trans_le hone
  have hsum : (vs.map fun x => ExactExponential.exp (x - top)).sum = total := by
    rw [← heq, htotal, sum_eq_sum]
  refine ⟨fun x => ExactExponential.exp (x - top) / total, fun x y hxy => ?_, ?_, fun x hx => ?_,
    ?_⟩
  · exact div_lt_div_of_pos_right (ExactExponential.strictMono (sub_lt_sub_right hxy top)) hpos
  · unfold softmax
    dsimp only
    rw [← htotal, heq, List.map_map]
    rfl
  · have hmem : ExactExponential.exp (x - top) ∈ exponentials vs :=
      heq ▸ List.mem_map_of_mem (f := fun x => ExactExponential.exp (x - top)) hx
    refine ⟨div_pos (ExactExponential.pos _) hpos, (div_le_one hpos).2 ?_⟩
    rw [htotal, sum_eq_sum]
    exact List.single_le_sum (fun y hy => (exponential_pos hy).le) _ hmem
  · simp only [div_eq_mul_inv]
    rw [List.sum_map_mul_right, hsum, mul_inv_cancel₀ hpos.ne']

/-- The larger of two values moves with them. -/
theorem foldl_larger_map_add (c v : K) (vs : List K) :
    (vs.map (· + c)).foldl Exponential.larger (v + c) = vs.foldl Exponential.larger v + c := by
  induction vs generalizing v with
  | nil => rfl
  | cons w vs ih =>
    rw [List.map_cons, List.foldl_cons, List.foldl_cons, ← ih]
    exact congrArg (fun top => (vs.map (· + c)).foldl Exponential.larger top)
      (max_add_add_right v w c)

/-- Values that all move by the same distance keep their shares. -/
theorem softmax_map_add (c : K) (vs : List K) : softmax (vs.map (· + c)) = softmax vs := by
  have hexp : exponentials (vs.map (· + c)) = exponentials vs := by
    cases vs with
    | nil => rfl
    | cons v vs =>
      rw [List.map_cons, exponentials_cons, exponentials_cons, foldl_larger_map_add,
        ← List.map_cons (f := (· + c)), List.map_map]
      refine List.map_congr_left fun x _ => congrArg ExactExponential.exp ?_
      exact add_sub_add_right_eq_sub x _ c
  unfold softmax
  rw [hexp]

end TreeCorpus.Ranking
