import Mathlib.Data.List.Nodup
import TreeCorpus.Graph.Basic

/-!
# Nodes that agree with the edges

The nodes of a graph repeat what its list of edges says: the children of a node are the targets of
its edges, its in-degree counts the edges into it, and its parent is the source of the first of
them. A graph is joined when its edges stay within the nodes and the children agree with them
(`Joined`), and linked when all three agree (`Linked`). Adding edges and setting features keep a
graph linked, so every graph that the operations build is (`Built.linked`).
-/

namespace TreeCorpus.Graph

variable {g : Graph} {id s p c : String} {i j u v : Nat}

/-! ## Names and positions -/

/-- The names of the nodes, in node order. -/
def ids (g : Graph) : List String := g.nodes.toList.map Node.id

theorem length_ids (g : Graph) : g.ids.length = g.nodes.size := by
  unfold ids
  rw [List.length_map, Array.length_toList]

theorem lt_size_of_getElem?_ids (h : g.ids[i]? = some id) : i < g.nodes.size := by
  rw [← length_ids]
  exact (List.getElem?_eq_some_iff.1 h).1

theorem idAt_eq_getElem? (g : Graph) (i : Nat) : g.idAt i = g.ids[i]? := by
  unfold idAt ids
  rw [List.getElem?_map, Array.getElem?_toList]

theorem position_eq_some_iff_getElem? : g.position id = some i ↔ g.ids[i]? = some id := by
  rw [position_eq_some_iff, ← idAt_eq_getElem?]
  rfl

theorem position_eq_none_iff : g.position id = none ↔ id ∉ g.ids := by
  rw [List.mem_iff_getElem?, Option.eq_none_iff_forall_ne_some, not_exists]
  exact forall_congr' fun i => not_congr position_eq_some_iff_getElem?

theorem nodup_ids (g : Graph) : g.ids.Nodup := by
  rw [List.nodup_iff_getElem?_ne_getElem?]
  intro i j hij hj e
  have hj' : g.ids[j]? = some g.ids[j] := List.getElem?_eq_getElem hj
  have hi := position_eq_some_iff_getElem?.2 (e.trans hj')
  rw [position_eq_some_iff_getElem?.2 hj'] at hi
  exact Nat.ne_of_lt hij (Option.some.inj hi).symm

/-! ## What the edges say -/

/-- There is an edge from one position to another. -/
def HasEdge (g : Graph) (u v : Nat) : Prop := (u, v) ∈ g.edges.toList

/-- The targets of the edges that leave a position, in insertion order. -/
def targets (g : Graph) (i : Nat) : List Nat := (g.edges.toList.filter (·.1 == i)).map Prod.snd

/-- How many edges end in a position. -/
def edgesInto (g : Graph) (i : Nat) : Nat := g.edges.toList.countP (·.2 == i)

/-- The source of the first edge into a position. -/
def firstSource (g : Graph) (i : Nat) : Option Nat :=
  (g.edges.toList.find? (·.2 == i)).map Prod.fst

theorem mem_targets_iff : v ∈ g.targets u ↔ g.HasEdge u v := by
  simp only [targets, HasEdge, List.mem_map, List.mem_filter, beq_iff_eq, Prod.exists]
  constructor
  · rintro ⟨a, b, ⟨he, rfl⟩, rfl⟩
    exact he
  · intro he
    exact ⟨u, v, ⟨he, rfl⟩, rfl⟩

theorem edgesInto_pos_iff : 0 < g.edgesInto v ↔ ∃ u, g.HasEdge u v := by
  unfold edgesInto
  rw [List.countP_pos_iff]
  constructor
  · rintro ⟨⟨u, w⟩, he, hw⟩
    obtain rfl : w = v := eq_of_beq hw
    exact ⟨u, he⟩
  · rintro ⟨u, he⟩
    exact ⟨(u, v), he, beq_self_eq_true v⟩

theorem edgesInto_eq_zero_iff : g.edgesInto v = 0 ↔ ∀ u, ¬ g.HasEdge u v := by
  rw [← not_exists, ← edgesInto_pos_iff]
  omega

/-- Every edge stands somewhere among the targets of its source. -/
theorem HasEdge.exists_target (h : g.HasEdge u v) : ∃ k : Nat, (g.targets u)[k]? = some v :=
  List.mem_iff_getElem?.1 (mem_targets_iff.2 h)

theorem hasEdge_of_target {k : Nat} (h : (g.targets u)[k]? = some v) : g.HasEdge u v :=
  mem_targets_iff.1 (List.mem_of_getElem? h)

/-- The edges join positions of nodes, and the children of a node are the targets of its edges. -/
structure Joined (g : Graph) : Prop where
  inRange : ∀ {u v}, g.HasEdge u v → u < g.nodes.size ∧ v < g.nodes.size
  children_eq : ∀ {i n}, g.nodes[i]? = some n → n.children.toList = g.targets i

namespace Joined

/-- Nothing leaves a position beyond the nodes. -/
theorem targets_of_le (h : g.Joined) (hi : g.nodes.size ≤ i) : g.targets i = [] := by
  apply List.eq_nil_iff_forall_not_mem.2
  intro v hv
  have := (h.inRange (mem_targets_iff.1 hv)).1
  omega

/-- The children of a position are the targets of its edges. -/
theorem childrenAt_eq (h : g.Joined) (i : Nat) : (g.childrenAt i).toList = g.targets i := by
  unfold childrenAt
  rcases hn : g.nodes[i]? with _ | n
  · exact (h.targets_of_le (Array.getElem?_eq_none_iff.1 hn)).symm
  · exact h.children_eq hn

end Joined

/-- The edges join positions of nodes, and every node agrees with the edges. -/
structure Linked (g : Graph) : Prop where
  inRange : ∀ {u v}, g.HasEdge u v → u < g.nodes.size ∧ v < g.nodes.size
  children_eq : ∀ {i n}, g.nodes[i]? = some n → n.children.toList = g.targets i
  inDegree_eq : ∀ {i n}, g.nodes[i]? = some n → n.inDegree = g.edgesInto i
  parent_eq : ∀ {i n}, g.nodes[i]? = some n → n.parent = g.firstSource i

namespace Linked

theorem joined (h : g.Linked) : g.Joined := ⟨h.inRange, h.children_eq⟩

/-- Nothing enters a position beyond the nodes. -/
theorem edgesInto_of_le (h : g.Linked) (hi : g.nodes.size ≤ i) : g.edgesInto i = 0 := by
  apply edgesInto_eq_zero_iff.2
  intro u hu
  have := (h.inRange hu).2
  omega

theorem firstSource_of_le (h : g.Linked) (hi : g.nodes.size ≤ i) : g.firstSource i = none := by
  unfold firstSource
  rw [Option.map_eq_none_iff, List.find?_eq_none]
  rintro ⟨u, w⟩ he hw
  obtain rfl : w = i := eq_of_beq hw
  have := (h.inRange he).2
  omega

end Linked

/-! ## Adding nodes -/

theorem linked_empty : empty.Linked where
  inRange h := absurd h List.not_mem_nil
  children_eq h := by simp [empty] at h
  inDegree_eq h := by simp [empty] at h
  parent_eq h := by simp [empty] at h

theorem getElem?_nodes_addNode (h : g.position id = none) (i : Nat) :
    (g.addNode id h).nodes[i]? =
      if i = g.nodes.size then some (Node.fresh id) else g.nodes[i]? :=
  Array.getElem?_push

theorem Linked.addNode (h : g.Linked) (hid : g.position id = none) : (g.addNode id hid).Linked := by
  have hsize : (g.addNode id hid).nodes.size = g.nodes.size + 1 := Array.size_push _
  have hnode {i : Nat} {n : Node} (hn : (g.addNode id hid).nodes[i]? = some n) :
      g.nodes.size ≤ i ∧ n = Node.fresh id ∨ g.nodes[i]? = some n := by
    rw [getElem?_nodes_addNode] at hn
    split at hn
    · rename_i hi
      exact Or.inl ⟨Nat.le_of_eq hi.symm, (Option.some.inj hn).symm⟩
    · exact Or.inr hn
  refine ⟨fun {u v} he => ?_, fun {i n} hn => ?_, fun {i n} hn => ?_, fun {i n} hn => ?_⟩
  · have := h.inRange (show g.HasEdge u v from he)
    omega
  · rcases hnode hn with ⟨hi, rfl⟩ | hn
    · exact (h.joined.targets_of_le hi).symm
    · exact h.children_eq hn
  · rcases hnode hn with ⟨hi, rfl⟩ | hn
    · exact (h.edgesInto_of_le hi).symm
    · exact h.inDegree_eq hn
  · rcases hnode hn with ⟨hi, rfl⟩ | hn
    · exact (h.firstSource_of_le hi).symm
    · exact h.parent_eq hn

theorem ids_addNode (h : g.position id = none) : (g.addNode id h).ids = g.ids ++ [id] := by
  show (g.nodes.push (Node.fresh id)).toList.map Node.id = _
  rw [Array.toList_push, List.map_append]
  rfl

theorem intern_of_position (h : g.position id = some i) : g.intern id = (g, i) := by
  unfold intern
  split
  · rename_i j hj
    rw [h] at hj
    rw [Option.some.inj hj]
  · rename_i hn
    rw [h] at hn
    exact absurd hn (by simp)

theorem intern_of_new (h : g.position id = none) :
    g.intern id = (g.addNode id h, g.nodes.size) := by
  unfold intern
  split
  · rename_i j hj
    rw [h] at hj
    exact absurd hj (by simp)
  · rfl

theorem Linked.intern (h : g.Linked) (id : String) : (g.intern id).1.Linked := by
  rcases hid : g.position id with _ | i
  · rw [intern_of_new hid]
    exact h.addNode hid
  · rw [intern_of_position hid]
    exact h

theorem edges_intern (g : Graph) (id : String) : (g.intern id).1.edges = g.edges := by
  rcases hid : g.position id with _ | i
  · rw [intern_of_new hid]
    rfl
  · rw [intern_of_position hid]

/-- A name without a node goes to the end. -/
theorem ids_intern (g : Graph) (id : String) :
    (g.intern id).1.ids = if id ∈ g.ids then g.ids else g.ids ++ [id] := by
  rcases hid : g.position id with _ | i
  · rw [intern_of_new hid, ids_addNode, if_neg (position_eq_none_iff.1 hid)]
  · have hm := List.mem_of_getElem? (position_eq_some_iff_getElem?.1 hid)
    rw [intern_of_position hid, if_pos hm]

theorem getElem?_ids_intern_self (g : Graph) (id : String) :
    (g.intern id).1.ids[(g.intern id).2]? = some id := by
  rcases hid : g.position id with _ | i
  · rw [intern_of_new hid, ids_addNode, ← length_ids, List.getElem?_append_right (Nat.le_refl _),
      Nat.sub_self]
    rfl
  · rw [intern_of_position hid]
    exact position_eq_some_iff_getElem?.1 hid

/-- Nodes keep their positions. -/
theorem getElem?_ids_intern (h : g.ids[i]? = some s) (id : String) :
    (g.intern id).1.ids[i]? = some s := by
  have hlt := (List.getElem?_eq_some_iff.1 h).1
  rw [ids_intern]
  split
  · exact h
  · rw [List.getElem?_append_left hlt, h]

/-! ## Adding edges -/

theorem getElem?_nodes_modifyNode (g : Graph) (i : Nat) (f : Node → Node)
    (h : ∀ n, (f n).id = n.id) (j : Nat) :
    (g.modifyNode i f h).nodes[j]? = if i = j then g.nodes[j]?.map f else g.nodes[j]? :=
  Array.getElem?_modify

theorem ids_modifyNode (g : Graph) (i : Nat) (f : Node → Node) (h : ∀ n, (f n).id = n.id) :
    (g.modifyNode i f h).ids = g.ids := by
  apply List.ext_getElem?
  intro j
  rw [← idAt_eq_getElem?, ← idAt_eq_getElem?, idAt, idAt, getElem?_nodes_modifyNode]
  split
  · rw [Option.map_map]
    exact congrArg (fun k => (g.nodes[j]?).map k) (funext h)
  · rfl

theorem toList_edges_addEdge (g : Graph) (u v : Nat) :
    (g.addEdge u v).edges.toList = g.edges.toList ++ [(u, v)] := Array.toList_push

theorem size_nodes_addEdge (g : Graph) (u v : Nat) :
    (g.addEdge u v).nodes.size = g.nodes.size := by
  unfold addEdge modifyNode
  rw [Array.size_modify, Array.size_modify]

theorem ids_addEdge (g : Graph) (u v : Nat) : (g.addEdge u v).ids = g.ids := by
  unfold addEdge
  rw [ids_modifyNode, ids_modifyNode]
  rfl

/-- The source gains a child; the target gains an edge into it and, if it had none, a parent. -/
theorem getElem?_nodes_addEdge (g : Graph) (u v i : Nat) :
    (g.addEdge u v).nodes[i]? = (g.nodes[i]?).map fun n =>
      { n with
        children := if u = i then n.children.push v else n.children
        inDegree := if v = i then n.inDegree + 1 else n.inDegree
        parent := if v = i then n.parent.or (some u) else n.parent } := by
  unfold addEdge
  rw [getElem?_nodes_modifyNode, getElem?_nodes_modifyNode]
  rcases g.nodes[i]? with _ | n
  · split <;> split <;> simp
  · split <;> split <;> simp

theorem targets_addEdge (g : Graph) (u v i : Nat) :
    (g.addEdge u v).targets i = g.targets i ++ if u = i then [v] else [] := by
  rw [targets, toList_edges_addEdge, List.filter_append, List.map_append, targets]
  by_cases h : u = i <;> simp [h]

theorem edgesInto_addEdge (g : Graph) (u v i : Nat) :
    (g.addEdge u v).edgesInto i = g.edgesInto i + if v = i then 1 else 0 := by
  rw [edgesInto, toList_edges_addEdge, List.countP_append, edgesInto]
  by_cases h : v = i <;> simp [h]

theorem firstSource_addEdge (g : Graph) (u v i : Nat) :
    (g.addEdge u v).firstSource i = (g.firstSource i).or (if v = i then some u else none) := by
  rw [firstSource, toList_edges_addEdge, List.find?_append, Option.map_or, firstSource]
  by_cases h : v = i <;> simp [h]

theorem Linked.addEdge (h : g.Linked) (hu : u < g.nodes.size) (hv : v < g.nodes.size) :
    (g.addEdge u v).Linked := by
  have hsize := size_nodes_addEdge g u v
  refine ⟨fun {a b} he => ?_, fun {i n} hn => ?_, fun {i n} hn => ?_, fun {i n} hn => ?_⟩
  · unfold HasEdge at he
    rw [toList_edges_addEdge, List.mem_append, List.mem_singleton] at he
    rw [hsize]
    rcases he with he | he
    · exact h.inRange he
    · obtain ⟨rfl, rfl⟩ := Prod.mk.inj he
      exact ⟨hu, hv⟩
  all_goals
    rw [getElem?_nodes_addEdge, Option.map_eq_some_iff] at hn
    obtain ⟨m, hm, rfl⟩ := hn
  · have hc := h.children_eq hm
    rw [targets_addEdge, ← hc]
    by_cases e : u = i <;> simp [e]
  · rw [edgesInto_addEdge, ← h.inDegree_eq hm]
    by_cases e : v = i <;> simp [e]
  · rw [firstSource_addEdge, ← h.parent_eq hm]
    by_cases e : v = i <;> simp [e]

/-- Both names have positions once they are interned. -/
theorem lt_size_insertEdge (g : Graph) (p c : String) :
    (g.intern p).2 < ((g.intern p).1.intern c).1.nodes.size ∧
      ((g.intern p).1.intern c).2 < ((g.intern p).1.intern c).1.nodes.size := by
  have hi := getElem?_ids_intern (getElem?_ids_intern_self g p) c
  have hj := getElem?_ids_intern_self (g.intern p).1 c
  exact ⟨lt_size_of_getElem?_ids hi, lt_size_of_getElem?_ids hj⟩

theorem insertEdge_eq (g : Graph) (p c : String) :
    g.insertEdge p c = ((g.intern p).1.intern c).1.addEdge (g.intern p).2
      ((g.intern p).1.intern c).2 := rfl

theorem Linked.insertEdge (h : g.Linked) (p c : String) : (g.insertEdge p c).Linked := by
  have hlt := lt_size_insertEdge g p c
  rw [insertEdge_eq]
  exact ((h.intern p).intern c).addEdge hlt.1 hlt.2

theorem Linked.setFeatures (h : g.Linked) (i : Nat) (v : List Number.Single) :
    (g.setFeatures i v).Linked := by
  have hnode {j : Nat} {n : Node} (hn : (g.setFeatures i v).nodes[j]? = some n) :
      ∃ m, g.nodes[j]? = some m ∧ n.children = m.children ∧ n.inDegree = m.inDegree ∧
        n.parent = m.parent := by
    unfold Graph.setFeatures at hn
    rw [getElem?_nodes_modifyNode] at hn
    split at hn
    · obtain ⟨m, hm, rfl⟩ := Option.map_eq_some_iff.1 hn
      exact ⟨m, hm, rfl, rfl, rfl⟩
    · exact ⟨n, hn, rfl, rfl, rfl⟩
  have hsize : (g.setFeatures i v).nodes.size = g.nodes.size := Array.size_modify
  refine ⟨fun {a b} he => ?_, fun {j n} hn => ?_, fun {j n} hn => ?_, fun {j n} hn => ?_⟩
  · rw [hsize]
    exact h.inRange he
  · obtain ⟨m, hm, hc, -, -⟩ := hnode hn
    rw [hc]
    exact h.children_eq hm
  · obtain ⟨m, hm, -, hd, -⟩ := hnode hn
    rw [hd]
    exact h.inDegree_eq hm
  · obtain ⟨m, hm, -, -, hp⟩ := hnode hn
    rw [hp]
    exact h.parent_eq hm

/-! ## Graphs made by the operations -/

/-- The graphs that adding edges between names and setting features make. -/
inductive Built : Graph → Prop where
  | empty : Built empty
  | insertEdge {g : Graph} (p c : String) : Built g → Built (g.insertEdge p c)
  | setFeatures {g : Graph} (i : Nat) (v : List Number.Single) : Built g → Built (g.setFeatures i v)

theorem Built.linked (h : g.Built) : g.Linked := by
  induction h with
  | empty => exact linked_empty
  | insertEdge p c _ ih => exact ih.insertEdge p c
  | setFeatures i v _ ih => exact ih.setFeatures i v

end TreeCorpus.Graph
