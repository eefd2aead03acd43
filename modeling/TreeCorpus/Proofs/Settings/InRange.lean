import TreeCorpus.Settings.Basic

/-!
# Settings in range

Settings are valid when each of them is in its own range and the two extensions differ
(`validate_eq_ok_iff_inRange`). The order of the tests only decides which fault is reported.
-/

namespace TreeCorpus.Config

variable {c : Config}

/-- What the tests of the settings ask for. -/
structure InRange (c : Config) : Prop where
  one_le_pageSize : 1 ≤ c.catalog.pageSize
  extension_ne : c.catalog.extension ≠ ""
  one_le_dimension : 1 ≤ c.features.dimension
  sidecarExtension_ne : c.features.sidecarExtension ≠ c.catalog.extension
  one_le_topK : 1 ≤ c.inference.topK
  isPositive_width : isPositive c.layout.width = true
  isPositive_levelGap : isPositive c.layout.levelGap = true
  workers_ne : c.dataset.workers ≠ some 0

/-- A test that reports a fault is passed, and so are the tests after it. -/
theorem ite_some_eq_none_iff {α : Type} {p : Prop} [Decidable p] {a : α} {x : Option α} :
    (if p then some a else x) = none ↔ ¬ p ∧ x = none := by
  by_cases hp : p <;> simp [hp]

theorem fault?_eq_none_iff : c.fault? = none ↔ c.InRange := by
  unfold fault?
  simp only [ite_some_eq_none_iff, and_true]
  constructor
  · rintro ⟨hpage, hextension, hdimension, hsidecar, htopK, hmeasures, hworkers⟩
    simp only [Bool.or_eq_true, Bool.not_eq_true', not_or, Bool.not_eq_false] at hmeasures
    exact ⟨Nat.pos_of_ne_zero hpage, hextension, Nat.pos_of_ne_zero hdimension, hsidecar,
      Nat.pos_of_ne_zero htopK, hmeasures.1, hmeasures.2, hworkers⟩
  · intro h
    refine ⟨Nat.ne_of_gt h.one_le_pageSize, h.extension_ne, Nat.ne_of_gt h.one_le_dimension,
      h.sidecarExtension_ne, Nat.ne_of_gt h.one_le_topK, ?_, h.workers_ne⟩
    simp [h.isPositive_width, h.isPositive_levelGap]

theorem validate_eq_ok_iff_inRange : c.validate = .ok c ↔ c.InRange := by
  rw [validate_eq_ok_iff, fault?_eq_none_iff]
  exact and_iff_left rfl

end TreeCorpus.Config
