import TreeCorpus.Graph.Annotated
import TreeCorpus.Graph.Tensors
import TreeCorpus.Inference.LinearHead
import TreeCorpus.Ranking.Ranked

/-!
# Classification

An engine ranks the categories for an edge list: it builds the annotated graph, checks that it is
a rooted tree, has it scored, and ranks the scores. The first step that fails decides.
-/

namespace TreeCorpus

open Number Ranking

/-- Scores the tensors of a graph. -/
abbrev Classifier : Type := Tensors → Except ClassifierFault (List Single)

def LinearHead.classifier (h : LinearHead Single) : Classifier := fun t => h.scores t.rows

/-- A classifier and the names of the categories that it scores. -/
structure Engine where
  /-- The length of the feature vectors. -/
  dimension : Nat
  classifier : Classifier
  names : List String
  /-- How many categories are ranked. -/
  topK : Nat

namespace Engine

def scores (e : Engine) (g : Graph) : Except ClassifierFault (List Single) :=
  match e.classifier (Tensors.ofGraph g) with
  | .error fault => .error fault
  | .ok scores =>
    if scores.length = e.names.length then .ok scores
    else .error (.scoreCount scores.length e.names.length)

def classify (e : Engine) (edges : String) (table : FeatureTable) :
    Except Error (List (Prediction Single Double)) :=
  match Graph.buildInline edges table e.dimension with
  | .error e => .error e
  | .ok g => match g.treeRoot with
    | .error v => .error (.notATree v)
    | .ok _ => match e.scores g with
      | .error fault => .error (.classifier fault)
      | .ok scores => rank scores e.topK e.names

end Engine

end TreeCorpus
