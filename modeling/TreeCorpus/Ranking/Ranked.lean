import TreeCorpus.Number.Fixed
import TreeCorpus.Ranking.Softmax
import TreeCorpus.Ranking.TopK

/-!
# Ranked categories

The categories of the highest scores, each with its score and its share among the scores shown.
-/

namespace TreeCorpus

open Number Ranking

structure Prediction (σ κ : Type) where
  ordinal : Nat
  category : String
  score : σ
  /-- The softmax over the scores shown. -/
  confidence : κ
  deriving DecidableEq

namespace Ranking

variable {σ κ : Type} [Score σ] [Exponential κ]

/-- Names the ranked scores; the first position without a name is the error. -/
def nameAll (names : List String) : List ((σ × Nat) × κ) → Except Error (List (Prediction σ κ))
  | [] => .ok []
  | ((score, i), confidence) :: rest => match names[i]? with
    | none => .error (.invalidOrdinal i names.length)
    | some name => (nameAll names rest).map (⟨i, name, score, confidence⟩ :: ·)

/-- Ranks the `k` highest scores. `widen` takes a score to the type of the confidences. -/
def rankWith (widen : σ → κ) (scores : List σ) (k : Nat) (names : List String) :
    Except Error (List (Prediction σ κ)) :=
  match topScores scores k with
  | .error e => .error e
  | .ok es => nameAll names (es.zip (softmax (es.map fun e => widen e.1)))

/-- Ranks the `k` highest scores of 32 bits, with confidences of 64 bits. -/
def rank (scores : List Single) (k : Nat) (names : List String) :
    Except Error (List (Prediction Single Double)) :=
  rankWith Binary.convert scores k names

def predictionLine (place : Nat) (p : Prediction Single Double) : String :=
  let percent : Double := p.confidence * ((100 : Nat) : Double)
  s!"{place}. {p.category} ({percent.fixed 2}%)"

def rankingLines (ps : List (Prediction Single Double)) : List String :=
  ps.zipIdx.map fun e => predictionLine (e.2 + 1) e.1

end Ranking

end TreeCorpus
