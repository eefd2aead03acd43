import TreeCorpus.Graph.Basic

/-!
# Tensors

Graphs as a classifier takes them: one feature row a node, the edges as two lists of row
positions, and for every row the number of its graph.
-/

namespace TreeCorpus

open Number

/-- The feature rows, the edges and the graph number of each row. -/
structure Tensors where
  rows : List (List Single)
  sources : List Nat
  targets : List Nat
  batch : List Nat
  deriving DecidableEq

namespace Tensors

def empty : Tensors := ⟨[], [], [], []⟩

def ofGraph (g : Graph) : Tensors where
  rows := g.nodes.toList.map Node.features
  sources := g.edges.toList.map Prod.fst
  targets := g.edges.toList.map Prod.snd
  batch := List.replicate g.nodes.size 0

/-- Appends one graph with the number `n`, its positions shifted past the rows before it. -/
def append (t : Tensors) (n : Nat) (g : Graph) : Tensors :=
  let single := ofGraph g
  let offset := t.rows.length
  ⟨t.rows ++ single.rows, t.sources ++ single.sources.map (· + offset),
    t.targets ++ single.targets.map (· + offset), t.batch ++ List.replicate g.nodes.size n⟩

/-- The tensors of several graphs, numbered from zero. -/
def ofGraphs (gs : List Graph) : Tensors :=
  gs.zipIdx.foldl (fun t e => t.append e.2 e.1) empty

/-- One more than the number of the last graph. -/
def graphCount (t : Tensors) : Nat := (t.batch.getLast?.map (· + 1)).getD 0

end Tensors

end TreeCorpus
