import TreeCorpus.Error
import TreeCorpus.Json.Decode

/-!
# Linear classifiers

A linear head holds one row of weights and one bias a category. It averages the feature vectors of
a graph and scores a category by the dot product of its weights with that average, plus its bias.
-/

namespace TreeCorpus

open Number

/-- The weights and biases of the categories; all rows have one length. -/
structure LinearHead (α : Type) where
  weights : List (List α)
  bias : List α
  weights_ne_nil : weights ≠ []
  length_row : ∀ row ∈ weights, row.length = (weights.headD []).length
  length_bias : bias.length = weights.length

namespace LinearHead

variable {α : Type}

def ofParts (weights : List (List α)) (bias : List α) : Except ClassifierFault (LinearHead α) :=
  if h₁ : weights = [] then .error .noWeights
  else if h₂ : ∀ row ∈ weights, row.length = (weights.headD []).length then
    if h₃ : bias.length = weights.length then .ok ⟨weights, bias, h₁, h₂, h₃⟩
    else .error (.biasLength bias.length weights.length)
  else .error .raggedWeights

def inputDimension (h : LinearHead α) : Nat := (h.weights.headD []).length

def outputDimension (h : LinearHead α) : Nat := h.weights.length

variable [Arithmetic α]

/-- The average of rows of the given length. -/
def meanRow (dimension : Nat) (rows : List (List α)) : List α :=
  let total := rows.foldl (List.zipWith (· + ·)) (List.replicate dimension ((0 : Nat) : α))
  total.map (· / (rows.length : α))

def dot (ws xs : List α) : α := sum (List.zipWith (· * ·) ws xs)

def scores (h : LinearHead α) (rows : List (List α)) : Except ClassifierFault (List α) :=
  if rows = [] then .error .noNodes
  else match rows.find? (·.length != h.inputDimension) with
    | some row => .error (.rowLength row.length h.inputDimension)
    | none =>
      let pooled := meanRow h.inputDimension rows
      .ok (List.zipWith (fun ws b => dot ws pooled + b) h.weights h.bias)

def partsOfText? (text : String) : Option (List (List Single) × List Single) := do
  let v ← Json.ofText? text
  match ← v.fields? ["weights", "bias"] with
  | [weights, bias] => return (← weights.list? (Json.list? Json.single?), ← bias.list? Json.single?)
  | _ => none

def parse (text : String) : Except Error (LinearHead Single) :=
  match partsOfText? text with
  | none => .error .json
  | some (weights, bias) => (ofParts weights bias).mapError .classifier

def load (d : Disk) (path : String) : Except Error (LinearHead Single) :=
  match d.read path with
  | .ok text => parse text
  | .error e => .error e

end LinearHead

end TreeCorpus
