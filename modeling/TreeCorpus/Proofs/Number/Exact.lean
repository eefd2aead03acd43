import Mathlib.Algebra.BigOperators.Group.List.Basic
import Mathlib.Algebra.Field.Defs
import TreeCorpus.Number.Arithmetic

/-!
# Exact arithmetic

The operations of a field have no rounding, so over a field the definitions that take their
arithmetic as a parameter compute what their formulas say. A sum does not depend on where it starts
or on its order (`sum_eq_sum`).
-/

namespace TreeCorpus.Number

instance {K : Type} [Field K] : Arithmetic K where
  emptySum := 0

theorem sum_eq_sum {K : Type} [Field K] (xs : List K) : sum xs = xs.sum :=
  List.sum_eq_foldl.symm

end TreeCorpus.Number
