import Mathlib.Algebra.BigOperators.Field
import Mathlib.Algebra.BigOperators.Fin
import Mathlib.Algebra.BigOperators.Pi
import Mathlib.Algebra.Field.Rat
import TreeCorpus.Inference.Engine
import TreeCorpus.Proofs.Inference.LinearHead
import TreeCorpus.Proofs.Number.Exact
import TreeCorpus.Proofs.Number.Value
import TreeCorpus.Proofs.Outcome

/-!
# Scores in exact arithmetic

Without rounding, the score of a category is its bias plus the average, over the rows, of the dot
product of its weights with the row (`readout_eq`). The shapes of a head and of the rows make the
lists that are paired off equally long, so each entry of theirs stands in the formula. The average
does not depend on the order of the rows (`readout_of_perm`), and nothing but the rows of a graph is
read (`scores_exact`).
-/

namespace TreeCorpus.LinearHead

open Number

/-! ## Heads that are accepted -/

section Accepted

variable {α β : Type} {weights : List (List α)} {bias : List α} {h : LinearHead α}

theorem ofParts_eq_ok_iff : ofParts weights bias = .ok h ↔ h.weights = weights ∧ h.bias = bias := by
  constructor
  · intro hh
    unfold ofParts at hh
    split at hh
    · exact nomatch hh
    · split at hh
      · split at hh
        · obtain rfl := Except.ok.inj hh
          exact ⟨rfl, rfl⟩
        · exact nomatch hh
      · exact nomatch hh
  · rintro ⟨rfl, rfl⟩
    unfold ofParts
    rw [dif_neg h.weights_ne_nil, dif_pos h.length_row, dif_pos h.length_bias]

/-- The head with every number replaced by its image. -/
def map (f : α → β) (h : LinearHead α) : LinearHead β where
  weights := h.weights.map (List.map f)
  bias := h.bias.map f
  weights_ne_nil := by simpa using h.weights_ne_nil
  length_row := by
    obtain ⟨row, rows, hrows⟩ := List.exists_cons_of_ne_nil h.weights_ne_nil
    have hlength := h.length_row
    rw [hrows] at hlength ⊢
    simpa using hlength
  length_bias := by rw [List.length_map, List.length_map, h.length_bias]

variable {d : Disk} {path text : String}

theorem load_eq_ok_iff {h : LinearHead Single} : load d path = .ok h ↔
    ∃ text, d.read path = .ok text ∧ partsOfText? text = some (h.weights, h.bias) := by
  unfold load
  cases d.read path with
  | error e => simp
  | ok text =>
    simp only [Except.ok.injEq, exists_eq_left']
    unfold parse
    cases hparts : partsOfText? text with
    | none => simp
    | some parts =>
      obtain ⟨weights, bias⟩ := parts
      rw [mapError_eq_ok_iff, ofParts_eq_ok_iff, Option.some.injEq, Prod.mk.injEq]
      exact and_congr eq_comm eq_comm

/-- The head was made of the weights and the biases, or it is the head of a file that spells them,
each number read as an exact one. -/
inductive Accepted {K : Type} (value : Single → K) : List (List K) → List K → LinearHead K → Prop where
  | made {weights : List (List K)} {bias : List K} {h : LinearHead K} :
      ofParts weights bias = .ok h → Accepted value weights bias h
  | loaded {d : Disk} {path text : String} {weights : List (List Single)} {bias : List Single}
      {h : LinearHead Single} : load d path = .ok h → d.read path = .ok text →
      partsOfText? text = some (weights, bias) →
      Accepted value (weights.map (List.map value)) (bias.map value) (h.map value)

/-- No weight and no bias is lost. -/
theorem Accepted.parts_eq {K : Type} {value : Single → K} {weights : List (List K)} {bias : List K}
    {h : LinearHead K} (hh : Accepted value weights bias h) :
    h.weights = weights ∧ h.bias = bias := by
  cases hh with
  | made hmade => exact ofParts_eq_ok_iff.1 hmade
  | loaded hload hread hparts =>
    obtain ⟨text, hread', hparts'⟩ := load_eq_ok_iff.1 hload
    obtain rfl := Except.ok.inj (hread.symm.trans hread')
    obtain ⟨rfl, rfl⟩ := Prod.mk.inj (Option.some.inj (hparts.symm.trans hparts'))
    exact ⟨rfl, rfl⟩

end Accepted

/-! ## Entries -/

section Entries

variable {α : Type} {n : Nat}

/-- An entry of a list of known length. -/
def entry (l : List α) (hl : l.length = n) (i : Fin n) : α := l.get (i.cast hl.symm)

theorem ofFn_entry {l : List α} (hl : l.length = n) : List.ofFn (entry l hl) = l := by
  subst hl
  exact List.ofFn_get l

variable (h : LinearHead α)

/-- The weight of a coordinate for a category. -/
def weight (j : Fin h.outputDimension) (i : Fin h.inputDimension) : α :=
  entry (h.weights.get j) (h.length_row _ (List.get_mem ..)) i

/-- The bias of a category. -/
def offset (j : Fin h.outputDimension) : α := entry h.bias h.length_bias j

theorem ofFn_weight : (List.ofFn fun j => List.ofFn (h.weight j)) = h.weights := by
  have hrow (j : Fin h.outputDimension) : List.ofFn (h.weight j) = h.weights.get j :=
    ofFn_entry (h.length_row _ (List.get_mem ..))
  simp only [hrow]
  exact List.ofFn_get h.weights

theorem ofFn_offset : List.ofFn h.offset = h.bias := ofFn_entry h.length_bias

variable {h} {rows : List (List α)}

/-- There are rows, and all have the input dimension. -/
structure Fits (h : LinearHead α) (rows : List (List α)) : Prop where
  ne_nil : rows ≠ []
  length_row : ∀ row ∈ rows, row.length = h.inputDimension

/-- A coordinate of a row. -/
def Fits.feature (hfits : h.Fits rows) (r : Fin rows.length) (i : Fin h.inputDimension) : α :=
  entry (rows.get r) (hfits.length_row _ (List.get_mem ..)) i

theorem Fits.ofFn_feature (hfits : h.Fits rows) :
    (List.ofFn fun r => List.ofFn (hfits.feature r)) = rows := by
  have hrow (r : Fin rows.length) : List.ofFn (hfits.feature r) = rows.get r :=
    ofFn_entry (hfits.length_row _ (List.get_mem ..))
  simp only [hrow]
  exact List.ofFn_get rows

variable [Arithmetic α]

theorem exists_scores_iff : (∃ ss, h.scores rows = .ok ss) ↔ h.Fits rows := by
  constructor
  · rintro ⟨ss, hss⟩
    obtain ⟨hne, hrows, -⟩ := scores_eq_ok_iff.1 hss
    exact ⟨hne, hrows⟩
  · rintro ⟨hne, hrows⟩
    exact ⟨_, scores_of_length hne hrows⟩

end Entries

/-! ## Pairing off -/

/-- Of two lists of one length every entry is paired off. -/
theorem zipWith_ofFn {α β γ : Type} {n : Nat} (op : α → β → γ) (f : Fin n → α) (g : Fin n → β) :
    List.zipWith op (List.ofFn f) (List.ofFn g) = List.ofFn fun i => op (f i) (g i) := by
  apply List.ext_getElem (by simp)
  intro i hi hi'
  simp

variable {K : Type} [Field K] {n m : Nat}

theorem dot_ofFn (w x : Fin n → K) : dot (List.ofFn w) (List.ofFn x) = ∑ i, w i * x i := by
  unfold dot
  rw [zipWith_ofFn, sum_eq_sum, List.sum_ofFn]

/-- Rows are added up coordinate by coordinate. -/
theorem foldl_zipWith_add (f : Fin n → K) (xs : List (Fin n → K)) :
    (xs.map List.ofFn).foldl (List.zipWith (· + ·)) (List.ofFn f) = List.ofFn (f + xs.sum) := by
  induction xs generalizing f with
  | nil => rw [List.map_nil, List.foldl_nil, List.sum_nil, add_zero]
  | cons x xs ih =>
    rw [List.map_cons, List.foldl_cons, zipWith_ofFn, List.sum_cons, ← add_assoc]
    exact ih (f + x)

theorem meanRow_ofFn (x : Fin m → Fin n → K) :
    meanRow n (List.ofFn fun r => List.ofFn (x r)) = List.ofFn fun i => (∑ r, x r i) / m := by
  have hzero : List.replicate n ((0 : Nat) : K) = List.ofFn (0 : Fin n → K) := by
    rw [Nat.cast_zero]
    exact (List.ofFn_const n 0).symm
  have htotal := foldl_zipWith_add 0 (List.ofFn x)
  rw [← hzero, List.map_ofFn, List.sum_ofFn, zero_add] at htotal
  unfold meanRow
  simp only [List.length_ofFn]
  refine (congrArg (List.map _) htotal).trans ?_
  rw [List.map_ofFn]
  exact congrArg List.ofFn (funext fun i => congrArg (· / (m : K)) (Finset.sum_apply i _ _))

/-- The dot product with the average row is the average of the dot products. -/
theorem sum_mul_mean (w : Fin n → K) (x : Fin m → Fin n → K) :
    ∑ i, w i * ((∑ r, x r i) / m) = 1 / m * ∑ r, ∑ i, w i * x r i :=
  calc ∑ i, w i * ((∑ r, x r i) / m) = ∑ i, ∑ r, 1 / m * (w i * x r i) := by
        refine Finset.sum_congr rfl fun i _ => ?_
        rw [← Finset.mul_sum, ← Finset.mul_sum, one_div, div_eq_inv_mul, mul_left_comm]
    _ = ∑ r, ∑ i, 1 / m * (w i * x r i) := Finset.sum_comm
    _ = 1 / m * ∑ r, ∑ i, w i * x r i := by simp only [Finset.mul_sum]

/-! ## The scores -/

variable {h : LinearHead K} {rows rows' : List (List K)}

/-- The score of a category is its bias plus the average of the dot products of its weights with the
rows. -/
theorem readout_eq (hfits : h.Fits rows) : h.readout rows = List.ofFn fun j =>
    h.offset j + 1 / rows.length * ∑ r, ∑ i, h.weight j i * hfits.feature r i := by
  have hmean := meanRow_ofFn hfits.feature
  rw [hfits.ofFn_feature] at hmean
  unfold readout
  rw [hmean, ← h.ofFn_weight, ← h.ofFn_offset, zipWith_ofFn]
  refine congrArg List.ofFn (funext fun j => ?_)
  rw [dot_ofFn, sum_mul_mean]
  exact add_comm _ _

/-- The order of the rows does not matter. -/
theorem readout_of_perm (hperm : rows'.Perm rows) : h.readout rows' = h.readout rows := by
  have hcomm : RightCommutative (List.zipWith ((· + ·) : K → K → K)) := by
    refine ⟨fun a b c => List.ext_getElem (by simp; omega) fun i hi hi' => ?_⟩
    simp only [List.getElem_zipWith]
    exact add_right_comm _ _ _
  have hmean : meanRow h.inputDimension rows' = meanRow h.inputDimension rows := by
    unfold meanRow
    rw [hperm.length_eq, hperm.foldl_eq]
  unfold readout
  rw [hmean]

theorem scores_of_perm (hperm : rows'.Perm rows) {ss : List K} :
    h.scores rows' = .ok ss ↔ h.scores rows = .ok ss := by
  have hnil : rows' = [] ↔ rows = [] :=
    ⟨fun he => (he ▸ hperm).symm.eq_nil, fun he => (he ▸ hperm).eq_nil⟩
  simp only [scores_eq_ok_iff, readout_of_perm hperm, hperm.mem_iff, Ne, hnil]

/-- A head that was accepted scores rows exactly when there are some and all have its input
dimension. The score of a category is then its bias plus the average over the rows of the dot
products with its weights, whatever the order of the rows; nothing else of a graph is read. -/
theorem scores_exact (value : Single → K) {weights : List (List K)} {bias : List K}
    (hh : Accepted value weights bias h) (rows : List (List K)) :
    (h.weights = weights ∧ h.bias = bias) ∧
    ((∃ ss, h.scores rows = .ok ss) ↔ h.Fits rows) ∧
    (∀ hfits : h.Fits rows, ∃ ss, h.scores rows = .ok ss ∧ ss.length = h.outputDimension ∧
      ss = List.ofFn fun j =>
        h.offset j + 1 / rows.length * ∑ r, ∑ i, h.weight j i * hfits.feature r i) ∧
    (∀ rows', rows'.Perm rows → ∀ ss, h.scores rows' = .ok ss ↔ h.scores rows = .ok ss) ∧
    ∀ (m : LinearHead Single) (t : Tensors),
      ((∃ ss, m.classifier t = .ok ss) ↔ m.Fits t.rows) ∧
      ∀ sources targets batch, m.classifier ⟨t.rows, sources, targets, batch⟩ = m.classifier t := by
  refine ⟨hh.parts_eq, exists_scores_iff, fun hfits => ⟨_, ?_, h.length_readout rows, ?_⟩,
    fun rows' hperm ss => scores_of_perm hperm, fun m t => ⟨exists_scores_iff, fun _ _ _ => rfl⟩⟩
  · exact scores_of_length hfits.ne_nil hfits.length_row
  · exact readout_eq hfits

/-- Two categories over two coordinates. -/
def pairHead : LinearHead ℚ :=
  ⟨[[1, 0], [0, 2]], [0, 1], by simp, by simp, rfl⟩

theorem fits_pairHead : pairHead.Fits [[1, 2], [3, 4]] :=
  ⟨by simp, by simp [pairHead, inputDimension]⟩

theorem scores_exact_pair : ofParts [[1, 0], [0, 2]] [0, 1] = .ok pairHead ∧
    pairHead.scores [[1, 2], [3, 4]] = .ok [2, 7] ∧
    pairHead.scores [[3, 4], [1, 2]] = .ok [2, 7] := by
  have hmade : ofParts [[1, 0], [0, 2]] [0, 1] = .ok pairHead := ofParts_eq_ok_iff.2 ⟨rfl, rfl⟩
  obtain ⟨-, -, hscores, hperm, -⟩ :=
    scores_exact (Binary.value ℚ) (.made hmade) [[1, 2], [3, 4]]
  obtain ⟨ss, hss, -, hformula⟩ := hscores fits_pairHead
  have hvalue : ss = [2, 7] := by
    rw [hformula]
    decide +kernel
  rw [hvalue] at hss
  exact ⟨hmade, hss, (hperm _ (List.Perm.swap _ _ _) _).2 hss⟩

end TreeCorpus.LinearHead
