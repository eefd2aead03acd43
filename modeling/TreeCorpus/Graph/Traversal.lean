import TreeCorpus.Graph.Basic

/-!
# Traversal from a node

A traversal keeps the nodes already visited and a stack of nodes to look at. Each step takes one
node off the stack; a node that was not visited yet is marked and its unvisited children go onto
the stack. A node enters the stack once for its start or once for an edge into it, so one step
more than there are edges empties the stack.
-/

namespace TreeCorpus

/-- The state of a traversal; `order` lists the visited nodes. -/
structure Traversal where
  visited : Array Bool
  stack : List Nat
  order : Array Nat
  deriving DecidableEq

namespace Traversal

def start (g : Graph) (root : Nat) : Traversal :=
  ⟨Array.replicate g.nodes.size false, [root], #[]⟩

/-- A node of the graph that was not visited yet. -/
def isNew (t : Traversal) (i : Nat) : Bool := t.visited[i]? == some false

/-- Takes one node off the stack. -/
def step (g : Graph) (t : Traversal) : Traversal :=
  match t.stack with
  | [] => t
  | i :: rest =>
    if t.isNew i then
      let t' : Traversal := ⟨t.visited.setIfInBounds i true, rest, t.order.push i⟩
      { t' with stack := (g.childrenAt i).toList.filter t'.isNew ++ rest }
    else { t with stack := rest }

/-- Takes `n` steps, or fewer if the stack is empty before. -/
def run (g : Graph) : Nat → Traversal → Traversal
  | 0, t => t
  | n + 1, t => match t.stack with
    | [] => t
    | _ :: _ => run g n (t.step g)

end Traversal

namespace Graph

def traverse (g : Graph) (root : Nat) : Traversal :=
  Traversal.run g (g.edges.size + 1) (Traversal.start g root)

/-- The nodes that can be reached from `root`, each once, a parent before its children. -/
def visitOrder (g : Graph) (root : Nat) : List Nat := (g.traverse root).order.toList

/-- The positions that cannot be reached from `root`, in node order. -/
def unreachable (g : Graph) (root : Nat) : List Nat :=
  let t := g.traverse root
  (List.range g.nodes.size).filter t.isNew

end Graph

end TreeCorpus
