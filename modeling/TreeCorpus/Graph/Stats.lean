import TreeCorpus.Graph.Tree
import TreeCorpus.Number.Arithmetic

/-!
# Graph statistics

Counts of nodes, edges, leaves and degenerate nodes, and the depth of a rooted tree.
-/

namespace TreeCorpus

open Number

structure GraphStats where
  nodes : Nat
  edges : Nat
  /-- Edges per node, zero for the empty graph. -/
  averageDegree : Double
  isolatedNodes : Nat
  selfLoops : Nat
  leaves : Nat
  /-- The length of a longest path from the root; only rooted trees have one. -/
  depth : Option Nat
  featureDimension : Nat
  deriving DecidableEq

namespace Graph

/-- Gives the children of `i` a depth one below that of `i`. -/
def lowerChildren (g : Graph) (depths : Array Nat) (i : Nat) : Array Nat :=
  (g.childrenAt i).foldl (fun ds c => ds.setIfInBounds c (depths[i]?.getD 0 + 1)) depths

def depthsFrom (g : Graph) (root : Nat) : Array Nat :=
  (g.visitOrder root).foldl g.lowerChildren (Array.replicate g.nodes.size 0)

/-- The greatest distance from the root, for a rooted tree. -/
def depth (g : Graph) : Option Nat :=
  match g.treeRoot with
  | .ok root => some ((g.depthsFrom root).foldl max 0)
  | .error _ => none

def stats (g : Graph) : GraphStats where
  nodes := g.nodes.size
  edges := g.edges.size
  averageDegree :=
    if g.nodes.isEmpty then Binary.zero false
    else (g.edges.size : Double) / (g.nodes.size : Double)
  isolatedNodes := g.nodes.countP fun n => n.inDegree == 0 && n.children.isEmpty
  selfLoops := g.edges.countP fun e => e.1 == e.2
  leaves := g.nodes.countP fun n => n.children.isEmpty
  depth := g.depth
  featureDimension := g.featureDimension

end Graph

end TreeCorpus
