import Std.Data.HashMap
import TreeCorpus.Number.Binary

/-!
# Directed graphs with named nodes

Nodes stand in the order in which their names first appeared. A node records the source of the
first edge into it, how many edges end in it, and the targets of its own edges in insertion order.
The index of a graph names exactly its nodes, so no two nodes share a name (`Graph.id_inj`).
-/

namespace TreeCorpus

open Number

structure Node where
  id : String
  features : List Single
  /-- The source of the first edge into the node. -/
  parent : Option Nat
  inDegree : Nat
  children : Array Nat
  deriving DecidableEq

def Node.fresh (id : String) : Node := ⟨id, [], none, 0, #[]⟩

/-- Nodes, edges as pairs of node positions, and the position of each name. -/
structure Graph where
  nodes : Array Node
  edges : Array (Nat × Nat)
  index : Std.HashMap String Nat
  index_eq_some_iff : ∀ (id : String) (i : Nat),
    index[id]? = some i ↔ (nodes[i]?).map Node.id = some id

namespace Graph

def empty : Graph := ⟨#[], #[], ∅, by simp⟩

def position (g : Graph) (id : String) : Option Nat := g.index[id]?

theorem position_eq_some_iff {g : Graph} {id : String} {i : Nat} :
    g.position id = some i ↔ (g.nodes[i]?).map Node.id = some id := g.index_eq_some_iff id i

/-- Two nodes with one name are one node. -/
theorem id_inj (g : Graph) {i j : Nat} {id : String} (hi : (g.nodes[i]?).map Node.id = some id)
    (hj : (g.nodes[j]?).map Node.id = some id) : i = j := by
  have h1 := (g.index_eq_some_iff id i).2 hi
  have h2 := (g.index_eq_some_iff id j).2 hj
  exact Option.some.inj (h1.symm.trans h2)

def node? (g : Graph) (id : String) : Option Node := (g.position id).bind (g.nodes[·]?)

def idAt (g : Graph) (i : Nat) : Option String := (g.nodes[i]?).map Node.id

def childrenAt (g : Graph) (i : Nat) : Array Nat := ((g.nodes[i]?).map Node.children).getD #[]

def idsAt (g : Graph) (ps : List Nat) : List String := ps.filterMap g.idAt

def edgeIds (g : Graph) : List (String × String) :=
  g.edges.toList.filterMap fun e => (g.idAt e.1).bind fun p => (g.idAt e.2).map (p, ·)

/-- The names of the children of `id`, in edge insertion order. -/
def children (g : Graph) (id : String) : List String :=
  ((g.position id).map fun i => g.idsAt (g.childrenAt i).toList).getD []

/-- The source of the first edge into `id`. -/
def parent (g : Graph) (id : String) : Option String :=
  ((g.node? id).bind Node.parent).bind g.idAt

def inDegree (g : Graph) (id : String) : Option Nat := (g.node? id).map Node.inDegree

def containsEdge (g : Graph) (p c : String) : Bool :=
  match g.position p, g.position c with
  | some i, some j => (g.childrenAt i).contains j
  | _, _ => false

/-- Length of the feature vectors, read off the first node. -/
def featureDimension (g : Graph) : Nat := ((g.nodes[0]?).map (·.features.length)).getD 0

/-! ## Building -/

/-- A new node takes the position after the last one. -/
theorem index_insert_eq_some_iff {g : Graph} {id : String} (h : g.position id = none)
    (k : String) (i : Nat) :
    (g.index.insert id g.nodes.size)[k]? = some i ↔
      ((g.nodes.push (Node.fresh id))[i]?).map Node.id = some k := by
  have hk := g.index_eq_some_iff k i
  have hid : ∀ j, (g.nodes[j]?).map Node.id ≠ some id := fun j hj => by
    have h1 := (g.index_eq_some_iff id j).2 hj
    rw [position] at h
    simp [h] at h1
  rw [Std.HashMap.getElem?_insert, Array.getElem?_push]
  by_cases e : id = k
  · subst e
    by_cases hi : i = g.nodes.size
    · simp [hi, Node.fresh]
    · have := hid i
      simp [hi, this, Ne.symm hi]
  · by_cases hi : i = g.nodes.size
    · subst hi
      simp [e, hk, Node.fresh]
    · simp [e, hi, hk]

def addNode (g : Graph) (id : String) (h : g.position id = none) : Graph :=
  let index := g.index.insert id g.nodes.size
  { g with
    nodes := g.nodes.push (Node.fresh id)
    index
    index_eq_some_iff := index_insert_eq_some_iff h }

/-- Gives a name a position: its own, or that of a new node at the end. -/
def intern (g : Graph) (id : String) : Graph × Nat :=
  match h : g.position id with
  | some i => (g, i)
  | none =>
    let i := g.nodes.size
    (g.addNode id h, i)

/-- Changes the node at a position and keeps its name. -/
def modifyNode (g : Graph) (i : Nat) (f : Node → Node) (h : ∀ n, (f n).id = n.id) : Graph where
  nodes := g.nodes.modify i f
  edges := g.edges
  index := g.index
  index_eq_some_iff k j := by
    rw [g.index_eq_some_iff k j, Array.getElem?_modify]
    split <;> simp [Option.map_map, Function.comp_def, h]

def addEdge (g : Graph) (p c : Nat) : Graph :=
  let g := { g with edges := g.edges.push (p, c) }
  let g := g.modifyNode p (fun n => { n with children := n.children.push c }) fun _ => rfl
  g.modifyNode c
    (fun n => { n with inDegree := n.inDegree + 1, parent := n.parent.or (some p) }) fun _ => rfl

/-- Appends an edge between two names and gives new names a node, the parent's first. -/
def insertEdge (g : Graph) (p c : String) : Graph :=
  let (g, i) := g.intern p
  let (g, j) := g.intern c
  g.addEdge i j

def setFeatures (g : Graph) (i : Nat) (v : List Single) : Graph :=
  g.modifyNode i (fun n => { n with features := v }) fun _ => rfl

end Graph

end TreeCorpus
