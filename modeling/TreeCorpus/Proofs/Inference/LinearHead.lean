import TreeCorpus.Inference.LinearHead

/-!
# Scores of a linear head

A head scores the rows it is given exactly when there are some and all have its input dimension
(`scores_eq_ok_iff`), with one score for each category (`length_readout`). No rows, or the first row
of another length, is the fault (`scores_eq_error_iff`).
-/

namespace TreeCorpus.LinearHead

variable {α : Type} {h : LinearHead α} {rows : List (List α)}

/-- Rows are missing, the first row of another length is found, or the rows fit. -/
theorem fits_or (h : LinearHead α) (rows : List (List α)) :
    rows = [] ∨ (∃ row, rows.find? (·.length != h.inputDimension) = some row) ∨
      rows ≠ [] ∧ ∀ row ∈ rows, row.length = h.inputDimension := by
  by_cases hne : rows = []
  · exact Or.inl hne
  · cases hrow : rows.find? (·.length != h.inputDimension) with
    | some row => exact Or.inr (Or.inl ⟨row, rfl⟩)
    | none => exact Or.inr (Or.inr ⟨hne, by simpa using hrow⟩)

variable [Number.Arithmetic α]

/-- One score a category: its weights against the average row, plus its bias. -/
def readout (h : LinearHead α) (rows : List (List α)) : List α :=
  List.zipWith (fun ws b => dot ws (meanRow h.inputDimension rows) + b) h.weights h.bias

@[simp] theorem length_readout (h : LinearHead α) (rows : List (List α)) :
    (h.readout rows).length = h.outputDimension := by
  rw [readout, List.length_zipWith, h.length_bias, Nat.min_self, outputDimension]

theorem scores_of_length (hne : rows ≠ []) (hrows : ∀ row ∈ rows, row.length = h.inputDimension) :
    h.scores rows = .ok (h.readout rows) := by
  have hnone : rows.find? (·.length != h.inputDimension) = none := by
    rw [List.find?_eq_none]
    intro row hrow
    simp [hrows row hrow]
  unfold scores
  rw [if_neg hne, hnone]
  rfl

theorem scores_of_find? {row : List α}
    (hrow : rows.find? (·.length != h.inputDimension) = some row) :
    h.scores rows = .error (.rowLength row.length h.inputDimension) := by
  unfold scores
  rw [if_neg (List.ne_nil_of_mem (List.mem_of_find?_eq_some hrow)), hrow]

theorem scores_eq_ok_iff {ss : List α} :
    h.scores rows = .ok ss ↔
      rows ≠ [] ∧ (∀ row ∈ rows, row.length = h.inputDimension) ∧ h.readout rows = ss := by
  constructor
  · intro hss
    rcases fits_or h rows with rfl | ⟨row, hrow⟩ | ⟨hne, hrows⟩
    · exact nomatch hss
    · rw [scores_of_find? hrow] at hss
      exact nomatch hss
    · rw [scores_of_length hne hrows] at hss
      exact ⟨hne, hrows, Except.ok.inj hss⟩
  · rintro ⟨hne, hrows, rfl⟩
    exact scores_of_length hne hrows

theorem scores_eq_error_iff {fault : ClassifierFault} :
    h.scores rows = .error fault ↔
      (rows = [] ∧ fault = .noNodes) ∨
        ∃ row, rows.find? (·.length != h.inputDimension) = some row ∧
          fault = .rowLength row.length h.inputDimension := by
  constructor
  · intro hf
    rcases fits_or h rows with rfl | ⟨row, hrow⟩ | ⟨hne, hrows⟩
    · exact Or.inl ⟨rfl, (Except.error.inj hf).symm⟩
    · rw [scores_of_find? hrow] at hf
      exact Or.inr ⟨row, hrow, (Except.error.inj hf).symm⟩
    · rw [scores_of_length hne hrows] at hf
      exact nomatch hf
  · rintro (⟨rfl, rfl⟩ | ⟨row, hrow, rfl⟩)
    · rfl
    · exact scores_of_find? hrow

end TreeCorpus.LinearHead
