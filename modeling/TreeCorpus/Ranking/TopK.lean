import TreeCorpus.Error
import TreeCorpus.Number.Binary

/-!
# The highest scores

`topK` gives the positions of the `k` highest scores, the highest first; of equal scores the one
at the lower position comes first. A score that is not finite has no place in the order.
-/

namespace TreeCorpus.Ranking

open Number

/-- A type of scores: which of them are finite and which of two is lower. -/
class Score (σ : Type) where
  isFinite : σ → Bool
  lower : σ → σ → Bool

instance : Score Single where
  isFinite x := x.isFinite
  lower x y := x.less y

variable {σ : Type} [Score σ]

/-- The positions of a score list, the highest score first. -/
def ranking (scores : List σ) : List (σ × Nat) :=
  scores.zipIdx.mergeSort fun a b => !Score.lower a.1 b.1

theorem ranking_perm (scores : List σ) : (ranking scores).Perm scores.zipIdx :=
  List.mergeSort_perm ..

@[simp] theorem length_ranking (scores : List σ) : (ranking scores).length = scores.length := by
  rw [(ranking_perm scores).length_eq, List.length_zipIdx]

def topScores (scores : List σ) (k : Nat) : Except Error (List (σ × Nat)) :=
  if k = 0 ∨ scores.length < k then .error (.invalidTopK k scores.length)
  else match scores.findIdx? (!Score.isFinite ·) with
    | some i => .error (.invalidScore i)
    | none => .ok ((ranking scores).take k)

theorem length_topScores {scores : List σ} {k : Nat} {es : List (σ × Nat)}
    (h : topScores scores k = .ok es) : es.length = k := by
  unfold topScores at h
  split at h
  · exact absurd h (by simp)
  · rename_i hk
    split at h
    · exact absurd h (by simp)
    · rw [← Except.ok.inj h, List.length_take, length_ranking]
      omega

def topK (scores : List σ) (k : Nat) : Except Error (List Nat) :=
  (topScores scores k).map fun es => es.map Prod.snd

end TreeCorpus.Ranking
