import TreeCorpus.Error

/-!
# Annotated graphs

The graph of an edge list with a feature vector from a table on every node. The first node, in
node order, without a vector or with one of another length is the error. A file may have its table
beside it, under its own name with another extension.
-/

namespace TreeCorpus

open Number

namespace Graph

/-- Gives the nodes from position `i` on their vectors. -/
def annotateFrom (table : FeatureTable) (dimension : Nat) (origin : String) (i : Nat) (g : Graph) :
    List String → Except Error Graph
  | [] => .ok g
  | id :: rest => match table.lookup id with
    | none => .error (.missingFeature id s!"{origin} (features: {table.origin})")
    | some values =>
      if values.length ≠ dimension then
        .error (.featureDimension id table.origin dimension values.length)
      else annotateFrom table dimension origin (i + 1) (g.setFeatures i values) rest

def annotate (g : Graph) (table : FeatureTable) (dimension : Nat) (origin : String) :
    Except Error Graph :=
  annotateFrom table dimension origin 0 g (g.nodes.toList.map Node.id)

def build (text origin : String) (table : FeatureTable) (dimension : Nat) : Except Error Graph :=
  match Graph.parse text origin with
  | .ok g => g.annotate table dimension origin
  | .error e => .error e

def inlineOrigin : String := "<inline>"

def buildInline (text : String) (table : FeatureTable) (dimension : Nat) : Except Error Graph :=
  build text inlineOrigin table dimension

def buildFile (d : Disk) (path : String) (table : FeatureTable) (dimension : Nat) :
    Except Error Graph :=
  match d.read path with
  | .ok text => build text path table dimension
  | .error e => .error e

/-- The annotated graph of a file, with the table beside it. The edge file is looked for before the
table is read. -/
def buildWithSidecar (d : Disk) (path extension : String) (dimension : Nat) : Except Error Graph :=
  if d.isFile path then
    match FeatureTable.load d (Path.withExtension path extension) dimension with
    | .ok table => buildFile d path table dimension
    | .error e => .error e
  else .error (.fileNotFound path)

end Graph

end TreeCorpus
