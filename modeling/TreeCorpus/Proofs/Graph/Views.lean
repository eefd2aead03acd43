import Mathlib.Algebra.GroupWithZero.Nat
import TreeCorpus.Proofs.Graph.Tree

/-!
# Views of a graph

What a graph tells about its edges by name comes from the index of its names, from the children of
its nodes and from the in-degrees and parents that they record. In a linked graph all of these tell
what the list of edges tells (`Linked.children_eq_edgeIds`, `Linked.inDegree_eq_edgeIds`,
`Linked.parent_eq_edgeIds`). A graph that was read is linked, its edges are distinct and join
distinct nodes, and every node is at the end of one (`views_agree_of_parse`).
-/

namespace TreeCorpus.Graph

variable {g : Graph} {id id' p c : String} {i : Nat}

/-! ## Names and their positions -/

theorem position_of_mem_ids (h : id ∈ g.ids) : g.position id = some (g.ids.idxOf id) :=
  position_eq_some_iff_getElem?.2 (List.getElem?_idxOf h)

theorem idAt_idxOf (h : id ∈ g.ids) : g.idAt (g.ids.idxOf id) = some id :=
  (idAt_eq_getElem? g _).trans (List.getElem?_idxOf h)

theorem position_inj (h : g.position id = some i) (h' : g.position id' = some i) : id = id' := by
  rw [position_eq_some_iff_getElem?] at h h'
  exact Option.some.inj (h.symm.trans h')

/-- Positions of names are equal when the names are. -/
theorem idxOf_beq_idxOf (h : id ∈ g.ids) (id' : String) :
    (g.ids.idxOf id == g.ids.idxOf id') = (id == id') := by
  rw [Bool.eq_iff_iff, beq_iff_eq, beq_iff_eq, List.idxOf_inj h]

theorem mem_ids_of_mem_edgeIds {e : String × String} (h : e ∈ g.edgeIds) :
    e.1 ∈ g.ids ∧ e.2 ∈ g.ids := by
  obtain ⟨u, v, -, hu, hv⟩ := mem_edgeIds_iff.1 h
  exact ⟨List.mem_of_getElem? hu, List.mem_of_getElem? hv⟩

/-- The node that a name leads to. -/
theorem exists_node (h : id ∈ g.ids) :
    ∃ n, g.nodes[g.ids.idxOf id]? = some n ∧ g.node? id = some n := by
  obtain ⟨n, hn, -⟩ := Option.map_eq_some_iff.1 (idAt_idxOf h)
  refine ⟨n, hn, ?_⟩
  unfold node?
  rw [position_of_mem_ids h]
  exact hn

theorem node?_eq_none (h : id ∉ g.ids) : g.node? id = none := by
  unfold node?
  rw [position_eq_none_iff.2 h]
  rfl

/-! ## The edges of a name -/

namespace Linked

theorem targets_idxOf (h : g.Linked) (id : String) :
    g.targets (g.ids.idxOf id) =
      (g.edgeIds.filter (·.1 == id)).map fun e => g.ids.idxOf e.2 := by
  have hends : ∀ e ∈ g.edgeIds,
      (g.ids.idxOf e.1 == g.ids.idxOf id) = (e.1 == id) := fun e he =>
    idxOf_beq_idxOf (mem_ids_of_mem_edgeIds he).1 id
  unfold targets
  rw [h.toList_edges_eq, List.filter_map, List.map_map]
  exact congrArg (List.map _) (List.filter_congr hends)

theorem edgesInto_idxOf (h : g.Linked) (id : String) :
    g.edgesInto (g.ids.idxOf id) = g.edgeIds.countP (·.2 == id) := by
  unfold edgesInto
  rw [h.toList_edges_eq, List.countP_map]
  apply List.countP_congr
  intro e he
  rw [Function.comp_apply, idxOf_beq_idxOf (mem_ids_of_mem_edgeIds he).2]

theorem firstSource_idxOf (h : g.Linked) (id : String) :
    g.firstSource (g.ids.idxOf id) =
      (g.edgeIds.find? (·.2 == id)).map fun e => g.ids.idxOf e.1 := by
  have hends : g.edgeIds.filter ((·.2 == g.ids.idxOf id) ∘
      fun e => (g.ids.idxOf e.1, g.ids.idxOf e.2)) = g.edgeIds.filter (·.2 == id) :=
    List.filter_congr fun e he => idxOf_beq_idxOf (mem_ids_of_mem_edgeIds he).2 id
  unfold firstSource
  rw [h.toList_edges_eq, List.find?_map, Option.map_map, ← List.head?_filter, hends,
    List.head?_filter]
  rfl

/-- The children of a name are the targets of its edges, in insertion order. -/
theorem children_eq_edgeIds (h : g.Linked) (id : String) :
    g.children id = (g.edgeIds.filter (·.1 == id)).map Prod.snd := by
  unfold children
  by_cases hid : id ∈ g.ids
  · rw [position_of_mem_ids hid, Option.map_some, Option.getD_some, h.joined.childrenAt_eq,
      h.targets_idxOf, idsAt, List.filterMap_map, ← List.filterMap_eq_map]
    apply List.filterMap_congr
    intro e he
    exact idAt_idxOf (mem_ids_of_mem_edgeIds (List.mem_of_mem_filter he)).2
  · have hnone : g.edgeIds.filter (·.1 == id) = [] := by
      rw [List.filter_eq_nil_iff]
      intro e he hp
      exact hid (eq_of_beq hp ▸ (mem_ids_of_mem_edgeIds he).1)
    rw [position_eq_none_iff.2 hid, hnone]
    rfl

/-- The in-degree of a name counts the edges into it. -/
theorem inDegree_eq_edgeIds (h : g.Linked) (hid : id ∈ g.ids) :
    g.inDegree id = some (g.edgeIds.countP (·.2 == id)) := by
  obtain ⟨n, hn, hnode⟩ := exists_node hid
  unfold inDegree
  rw [hnode, Option.map_some, h.inDegree_eq hn, h.edgesInto_idxOf]

/-- The parent of a name is the source of the first edge into it. -/
theorem parent_eq_edgeIds (h : g.Linked) (id : String) :
    g.parent id = (g.edgeIds.find? (·.2 == id)).map Prod.fst := by
  unfold parent
  by_cases hid : id ∈ g.ids
  · obtain ⟨n, hn, hnode⟩ := exists_node hid
    rw [hnode, Option.bind_some, h.parent_eq hn, h.firstSource_idxOf]
    cases hfind : g.edgeIds.find? (·.2 == id) with
    | none => rfl
    | some e => exact idAt_idxOf (mem_ids_of_mem_edgeIds (List.mem_of_find?_eq_some hfind)).1
  · have hnone : g.edgeIds.find? (·.2 == id) = none := by
      rw [List.find?_eq_none]
      intro e he hc
      exact hid (eq_of_beq hc ▸ (mem_ids_of_mem_edgeIds he).2)
    rw [node?_eq_none hid, hnone]
    rfl

/-- A recorded parent is the source of an edge. -/
theorem mem_edgeIds_of_parent (hl : g.Linked) (h : g.parent c = some p) : (p, c) ∈ g.edgeIds := by
  rw [hl.parent_eq_edgeIds, Option.map_eq_some_iff] at h
  obtain ⟨⟨q, d⟩, hfind, rfl⟩ := h
  have hd := List.find?_some hfind
  obtain rfl : d = c := eq_of_beq hd
  exact List.mem_of_find?_eq_some hfind

/-- A name that an edge enters records a parent. -/
theorem exists_parent (hl : g.Linked) (h : (p, c) ∈ g.edgeIds) : ∃ q, g.parent c = some q := by
  have hsome : (g.edgeIds.find? (·.2 == c)).isSome :=
    List.find?_isSome.2 ⟨(p, c), h, beq_self_eq_true c⟩
  obtain ⟨e, he⟩ := Option.isSome_iff_exists.1 hsome
  exact ⟨e.1, by rw [hl.parent_eq_edgeIds, he, Option.map_some]⟩

/-- A node has no parent exactly when no edge enters it. -/
theorem parent_eq_none_iff (h : g.Linked) (hid : id ∈ g.ids) :
    g.parent id = none ↔ g.inDegree id = some 0 := by
  rw [h.parent_eq_edgeIds, h.inDegree_eq_edgeIds hid, Option.some.injEq, Option.map_eq_none_iff,
    List.find?_eq_none, List.countP_eq_zero]

/-- The recorded in-degrees add up to the number of edges. -/
theorem sum_inDegree (h : g.Linked) : (g.nodes.toList.map Node.inDegree).sum = g.edges.size := by
  have hdegrees : g.nodes.toList.map Node.inDegree =
      (List.range g.nodes.size).map g.edgesInto := by
    apply List.ext_getElem (by simp)
    intro i hi hi'
    rw [List.getElem_map, List.getElem_map, List.getElem_range, Array.getElem_toList]
    exact h.inDegree_eq (Array.getElem?_eq_getElem _)
  rw [hdegrees, ← h.sum_edgesInto]
  rfl

end Linked

/-! ## Graphs that were read -/

/-- What a graph tells by name and by position agrees with its list of edges, which are distinct,
join distinct nodes and leave no node out. -/
structure ViewsAgree (g : Graph) : Prop where
  exists_position : ∀ id ∈ g.ids, ∃ i < g.nodes.size, g.position id = some i
  existsUnique_name : ∀ i < g.nodes.size, ∃! id, g.position id = some i
  id_of_position : ∀ id i, g.position id = some i → (g.nodes[i]?).map Node.id = some id
  /-- The positions on the edges and what the nodes record agree. -/
  linked : g.Linked
  length_edgeIds : g.edgeIds.length = g.edges.size
  children_eq : ∀ id, g.children id = (g.edgeIds.filter (·.1 == id)).map Prod.snd
  inDegree_eq : ∀ id ∈ g.ids, g.inDegree id = some (g.edgeIds.countP (·.2 == id))
  parent_eq : ∀ id, g.parent id = (g.edgeIds.find? (·.2 == id)).map Prod.fst
  parent_eq_none_iff : ∀ id ∈ g.ids, g.parent id = none ↔ g.inDegree id = some 0
  containsEdge_iff : ∀ p c, g.containsEdge p c = true ↔ (p, c) ∈ g.edgeIds
  nodup : g.edgeIds.Nodup
  ne_of_mem : ∀ e ∈ g.edgeIds, e.1 ≠ e.2
  exists_edge : ∀ id ∈ g.ids, ∃ e ∈ g.edgeIds, id = e.1 ∨ id = e.2
  sum_inDegree : (g.nodes.toList.map Node.inDegree).sum = g.edges.size

/-- In a graph of pairs every name stands in one of them. -/
theorem exists_pair_of_mem_ids {ps : List (String × String)} (h : id ∈ (ofPairs ps).ids) :
    ∃ e ∈ ps, id = e.1 ∨ id = e.2 := by
  rw [ids_ofPairs, List.mem_eraseDups, List.mem_flatMap] at h
  obtain ⟨e, he, hid⟩ := h
  exact ⟨e, he, List.mem_pair.1 hid⟩

theorem Linked.viewsAgree (h : g.Linked) (hnodup : g.edgeIds.Nodup)
    (hne : ∀ e ∈ g.edgeIds, e.1 ≠ e.2)
    (hends : ∀ id ∈ g.ids, ∃ e ∈ g.edgeIds, id = e.1 ∨ id = e.2) : g.ViewsAgree where
  exists_position id hid :=
    ⟨_, length_ids g ▸ List.idxOf_lt_length_of_mem hid, position_of_mem_ids hid⟩
  existsUnique_name i hi := by
    rw [← length_ids] at hi
    have hname := position_eq_some_iff_getElem?.2 (List.getElem?_eq_getElem hi)
    exact ⟨_, hname, fun id hid => position_inj hid hname⟩
  id_of_position _ _ hid := position_eq_some_iff.1 hid
  linked := h
  length_edgeIds := h.length_edgeIds
  children_eq := h.children_eq_edgeIds
  inDegree_eq _ hid := h.inDegree_eq_edgeIds hid
  parent_eq := h.parent_eq_edgeIds
  parent_eq_none_iff _ hid := h.parent_eq_none_iff hid
  containsEdge_iff _ _ := h.containsEdge_iff
  nodup := hnodup
  ne_of_mem := hne
  exists_edge := hends
  sum_inDegree := h.sum_inDegree

/-- All views of a graph that was read agree with its edges. -/
theorem views_agree_of_parse {text origin : String} (h : Graph.parse text origin = .ok g) :
    g.ViewsAgree := by
  obtain ⟨hlists, rfl⟩ := parse_eq_ok_iff.1 h
  have hl := (built_ofPairs (pairs (rows text))).linked
  apply hl.viewsAgree
  · rw [edgeIds_ofPairs]
    exact hlists.nodup
  · rw [edgeIds_ofPairs]
    exact hlists.ne_of_mem
  · intro id hid
    rw [edgeIds_ofPairs]
    exact exists_pair_of_mem_ids hid

/-- A node with two edges into it and two out of it, and an edge back to the start. -/
theorem views_agree_of_parse_crossing : ∃ g,
    Graph.parse "a x\nb x\n\nx c\nx d\nd a" "crossing" = .ok g ∧ g.ViewsAgree ∧
      g.children "x" = ["c", "d"] ∧ g.inDegree "x" = some 2 ∧ g.parent "x" = some "a" ∧
      g.parent "b" = none ∧ g.containsEdge "d" "a" = true := by
  have hrows : rows "a x\nb x\n\nx c\nx d\nd a" =
      [["a", "x"], ["b", "x"], [], ["x", "c"], ["x", "d"], ["d", "a"]] := by decide
  have hlists : ListsEdges (rows "a x\nb x\n\nx c\nx d\nd a") := by
    rw [hrows]
    exact ⟨by decide, by decide, by decide, by decide⟩
  have hg := parse_of_listsEdges "crossing" hlists
  rw [hrows] at hg
  have hviews := views_agree_of_parse hg
  refine ⟨_, hg, hviews, ?_, ?_, ?_, ?_, ?_⟩
  · rw [hviews.children_eq, edgeIds_ofPairs]
    decide
  · rw [hviews.inDegree_eq, edgeIds_ofPairs]
    · decide
    · rw [ids_ofPairs]
      decide
  · rw [hviews.parent_eq, edgeIds_ofPairs]
    decide
  · rw [hviews.parent_eq, edgeIds_ofPairs]
    decide
  · rw [hviews.containsEdge_iff, edgeIds_ofPairs]
    decide

end TreeCorpus.Graph
