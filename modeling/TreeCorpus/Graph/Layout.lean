import TreeCorpus.Graph.Tree
import TreeCorpus.Number.Arithmetic

/-!
# Hierarchical layout

The root owns the whole width. A node's span is cut into equal parts, one a child in edge order;
a node sits in the middle of its span, and a child one level gap below its parent. All arithmetic
is that of the type `α`.
-/

namespace TreeCorpus

open Number

/-- Where a node sits and which span it owns. -/
structure Placement (α : Type) where
  x : α
  y : α
  left : α
  right : α
  depth : Nat
  deriving DecidableEq

structure LayoutMeasures (α : Type) where
  width : α
  levelGap : α
  deriving DecidableEq

/-- The placements of the nodes of a tree, in node order. -/
structure Layout (α : Type) where
  entries : List (String × Placement α)
  deriving DecidableEq

namespace Placement

variable {α : Type} [Arithmetic α]

def ofSpan (left right y : α) (depth : Nat) : Placement α :=
  ⟨(left + right) / ((2 : Nat) : α), y, left, right, depth⟩

def root (m : LayoutMeasures α) : Placement α := ofSpan ((0 : Nat) : α) m.width ((0 : Nat) : α) 0

/-- The placement of child number `k` of `count`. -/
def child (m : LayoutMeasures α) (p : Placement α) (count k : Nat) : Placement α :=
  let step := (p.right - p.left) / (count : α)
  ofSpan (p.left + (k : α) * step) (p.left + ((k + 1 : Nat) : α) * step) (p.y - m.levelGap)
    (p.depth + 1)

end Placement

def Layout.placement {α : Type} (l : Layout α) (id : String) : Option (Placement α) :=
  (l.entries.find? (·.1 == id)).map (·.2)

def Layout.point {α : Type} (l : Layout α) (id : String) : Option (α × α) :=
  (l.placement id).map fun p => (p.x, p.y)

namespace Graph

variable {α : Type} [Arithmetic α]

def placeChildren (g : Graph) (m : LayoutMeasures α) (placed : Array (Option (Placement α)))
    (i : Nat) : Array (Option (Placement α)) :=
  match placed[i]? with
  | some (some p) =>
    let cs := (g.childrenAt i).toList
    cs.zipIdx.foldl (fun ps c => ps.setIfInBounds c.1 (some (p.child m cs.length c.2))) placed
  | _ => placed

def placeFrom (g : Graph) (m : LayoutMeasures α) (root : Nat) : Array (Option (Placement α)) :=
  (g.visitOrder root).foldl (g.placeChildren m)
    ((Array.replicate g.nodes.size none).setIfInBounds root (some (Placement.root m)))

/-- Lays out a rooted tree, from its root or from a requested node that must be the root. -/
def layout (g : Graph) (m : LayoutMeasures α) (requested : Option String) :
    Except TreeViolation (Layout α) :=
  match g.resolveRoot requested with
  | .error v => .error v
  | .ok root =>
    .ok ⟨(g.nodes.toList.zip (g.placeFrom m root).toList).filterMap fun e => e.2.map (e.1.id, ·)⟩

end Graph

end TreeCorpus
