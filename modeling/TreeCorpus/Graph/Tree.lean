import TreeCorpus.Graph.Traversal

/-!
# Rooted trees

A graph is a rooted tree when exactly one node has no edge into it, every other node has exactly
one, and all nodes can be reached from the first. The violations are tested in a fixed order.
-/

namespace TreeCorpus

/-- Why a graph is not a rooted tree, or not one with the requested root. -/
inductive TreeViolation where
  /-- Every node has a parent. -/
  | noRoot
  | multipleRoots (ids : List String)
  | multipleParents (id : String)
  /-- Nodes that no path from the root reaches. -/
  | unreachable (ids : List String)
  | unknownRoot (id : String)
  | rootHasParent (id : String)
  | empty
  deriving DecidableEq, Repr

def TreeViolation.message : TreeViolation → String
  | noRoot => "no node without a parent (cycle)"
  | multipleRoots ids => "multiple roots: " ++ String.intercalate ", " ids
  | multipleParents id => s!"node '{id}' has more than one parent"
  | unreachable ids =>
    "nodes unreachable from the root (cycle): " ++ String.intercalate ", " ids
  | unknownRoot id => s!"requested root '{id}' is not in the graph"
  | rootHasParent id => s!"requested root '{id}' has a parent"
  | empty => "graph has no nodes"

namespace Graph

/-- The positions of the nodes without an edge into them. -/
def sources (g : Graph) : List Nat :=
  (List.range g.nodes.size).filter fun i => (g.nodes[i]?).any (·.inDegree == 0)

def treeRoot (g : Graph) : Except TreeViolation Nat :=
  if g.nodes.isEmpty then .error .empty
  else match g.sources with
    | [] => .error .noRoot
    | [root] =>
      match g.nodes.find? (1 < ·.inDegree) with
      | some n => .error (.multipleParents n.id)
      | none => match g.unreachable root with
        | [] => .ok root
        | lost => .error (.unreachable (g.idsAt lost))
    | many => .error (.multipleRoots (g.idsAt many))

/-- The root of a rooted tree, which must be the requested node if one is requested. -/
def resolveRoot (g : Graph) (requested : Option String) : Except TreeViolation Nat :=
  match g.treeRoot, requested with
  | .error v, _ => .error v
  | .ok root, none => .ok root
  | .ok root, some id => match g.position id with
    | none => .error (.unknownRoot id)
    | some i => if i = root then .ok i else .error (.rootHasParent id)

end Graph

end TreeCorpus
