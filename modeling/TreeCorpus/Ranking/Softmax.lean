import TreeCorpus.Number.Arithmetic

/-!
# Softmax

The exponentials of the values, the largest value subtracted first, divided by their sum.
-/

namespace TreeCorpus.Ranking

open Number

variable {κ : Type} [Exponential κ]

/-- The exponentials of the distances to the largest value. -/
def exponentials : List κ → List κ
  | [] => []
  | v :: vs =>
    let top := vs.foldl Exponential.larger v
    (v :: vs).map fun x => Exponential.exp (x - top)

def softmax (vs : List κ) : List κ :=
  let es := exponentials vs
  let total := sum es
  es.map (· / total)

@[simp] theorem length_exponentials (vs : List κ) : (exponentials vs).length = vs.length := by
  cases vs <;> simp [exponentials]

@[simp] theorem length_softmax (vs : List κ) : (softmax vs).length = vs.length := by
  simp [softmax]

end TreeCorpus.Ranking
