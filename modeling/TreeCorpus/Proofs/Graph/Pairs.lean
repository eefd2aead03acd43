import Mathlib.Data.List.Induction
import TreeCorpus.Proofs.Graph.Linked

/-!
# Graphs of name pairs

The graph of a list of name pairs inserts them as edges, in order. Its edges are exactly those
pairs, and its nodes are the names in the order in which they first appear (`edgeIds_ofPairs`,
`ids_ofPairs`). Whether a graph contains an edge can thus be read off its list of edges.
-/

namespace TreeCorpus.Graph

variable {g : Graph} {p c : String}

/-! ## The edges as pairs of names -/

/-- The names at the two ends of an edge. -/
def namesOf (g : Graph) (e : Nat × Nat) : Option (String × String) :=
  (g.ids[e.1]?).bind fun p => (g.ids[e.2]?).map (p, ·)

theorem edgeIds_eq_filterMap (g : Graph) : g.edgeIds = g.edges.toList.filterMap g.namesOf := by
  have hf : (fun e : Nat × Nat => (g.idAt e.1).bind fun p => (g.idAt e.2).map (p, ·)) =
      g.namesOf := by
    funext e
    rw [idAt_eq_getElem?, idAt_eq_getElem?, namesOf]
  unfold edgeIds
  rw [hf]

theorem namesOf_eq_some_iff {e : Nat × Nat} :
    g.namesOf e = some (p, c) ↔ g.ids[e.1]? = some p ∧ g.ids[e.2]? = some c := by
  simp only [namesOf, Option.bind_eq_some_iff, Option.map_eq_some_iff, Prod.mk.injEq]
  constructor
  · rintro ⟨_, hp, _, hc, rfl, rfl⟩
    exact ⟨hp, hc⟩
  · rintro ⟨hp, hc⟩
    exact ⟨p, hp, c, hc, rfl, rfl⟩

/-- Every edge of a linked graph has names at both ends. -/
theorem Linked.exists_namesOf (h : g.Linked) {e : Nat × Nat} (he : e ∈ g.edges.toList) :
    ∃ p c, g.namesOf e = some (p, c) := by
  have hlt := h.inRange he
  rw [← length_ids] at hlt
  exact ⟨_, _, namesOf_eq_some_iff.2
    ⟨List.getElem?_eq_getElem hlt.1, List.getElem?_eq_getElem hlt.2⟩⟩

theorem Linked.length_edgeIds (h : g.Linked) : g.edgeIds.length = g.edges.size := by
  rw [edgeIds_eq_filterMap, ← Array.length_toList, List.length_filterMap_eq_countP,
    List.countP_eq_length]
  intro e he
  obtain ⟨p, c, hpc⟩ := h.exists_namesOf he
  rw [hpc]
  rfl

theorem mem_edgeIds_iff : (p, c) ∈ g.edgeIds ↔
    ∃ u v, g.HasEdge u v ∧ g.ids[u]? = some p ∧ g.ids[v]? = some c := by
  rw [edgeIds_eq_filterMap, List.mem_filterMap]
  constructor
  · rintro ⟨⟨u, v⟩, he, hn⟩
    exact ⟨u, v, he, namesOf_eq_some_iff.1 hn⟩
  · rintro ⟨u, v, he, hn⟩
    exact ⟨(u, v), he, namesOf_eq_some_iff.2 hn⟩

/-- The names in node order tell the positions that an edge joins. -/
theorem Linked.toList_edges_eq (h : g.Linked) :
    g.edges.toList = g.edgeIds.map fun e => (g.ids.idxOf e.1, g.ids.idxOf e.2) := by
  have hidx {i : Nat} {id : String} (hi : g.ids[i]? = some id) : g.ids.idxOf id = i := by
    obtain ⟨hlt, rfl⟩ := List.getElem?_eq_some_iff.1 hi
    exact g.nodup_ids.idxOf_getElem i hlt
  rw [edgeIds_eq_filterMap, List.map_filterMap]
  refine Eq.trans List.filterMap_some.symm (List.filterMap_congr fun e he => ?_)
  obtain ⟨p, c, hpc⟩ := h.exists_namesOf he
  obtain ⟨hp, hc⟩ := namesOf_eq_some_iff.1 hpc
  rw [hpc, Option.map_some, hidx hp, hidx hc]

/-- A graph contains an edge exactly when its edges list it. -/
theorem Linked.containsEdge_iff (h : g.Linked) :
    g.containsEdge p c = true ↔ (p, c) ∈ g.edgeIds := by
  rw [mem_edgeIds_iff, containsEdge]
  constructor
  · intro hc
    split at hc
    · rename_i u v hu hv
      have hm : v ∈ (g.childrenAt u).toList :=
        Array.mem_toList_iff.2 (Array.contains_iff_mem.1 hc)
      rw [h.joined.childrenAt_eq, mem_targets_iff] at hm
      exact ⟨u, v, hm, position_eq_some_iff_getElem?.1 hu, position_eq_some_iff_getElem?.1 hv⟩
    · exact absurd hc (by simp)
  · rintro ⟨u, v, he, hu, hv⟩
    rw [position_eq_some_iff_getElem?.2 hu, position_eq_some_iff_getElem?.2 hv]
    rw [← mem_targets_iff, ← h.joined.childrenAt_eq] at he
    exact Array.contains_iff_mem.2 (Array.mem_toList_iff.1 he)

/-! ## Inserting pairs -/

/-- A name at the end, unless it is listed already. -/
def addName (names : List String) (name : String) : List String :=
  if name ∈ names then names else names ++ [name]

theorem ids_insertEdge (g : Graph) (p c : String) :
    (g.insertEdge p c).ids = addName (addName g.ids p) c := by
  rw [insertEdge_eq, ids_addEdge, ids_intern, ids_intern]
  rfl

theorem edgeIds_addEdge (g : Graph) (u v : Nat) :
    (g.addEdge u v).edgeIds = g.edgeIds ++ (g.namesOf (u, v)).toList := by
  have hnames : (g.addEdge u v).namesOf = g.namesOf := by
    funext e
    rw [namesOf, ids_addEdge, namesOf]
  rw [edgeIds_eq_filterMap, toList_edges_addEdge, hnames, List.filterMap_append,
    ← edgeIds_eq_filterMap]
  cases h : g.namesOf (u, v) <;> simp [h]

theorem Linked.edgeIds_intern (h : g.Linked) (id : String) :
    (g.intern id).1.edgeIds = g.edgeIds := by
  rw [edgeIds_eq_filterMap, edges_intern, edgeIds_eq_filterMap]
  apply List.filterMap_congr
  intro e he
  obtain ⟨a, b, hab⟩ := h.exists_namesOf he
  obtain ⟨ha, hb⟩ := namesOf_eq_some_iff.1 hab
  rw [hab, namesOf_eq_some_iff]
  exact ⟨getElem?_ids_intern ha id, getElem?_ids_intern hb id⟩

/-- Inserting an edge appends its pair to the edges. -/
theorem Linked.edgeIds_insertEdge (h : g.Linked) (p c : String) :
    (g.insertEdge p c).edgeIds = g.edgeIds ++ [(p, c)] := by
  have hnew : ((g.intern p).1.intern c).1.namesOf
      ((g.intern p).2, ((g.intern p).1.intern c).2) = some (p, c) :=
    namesOf_eq_some_iff.2 ⟨getElem?_ids_intern (getElem?_ids_intern_self g p) c,
      getElem?_ids_intern_self (g.intern p).1 c⟩
  rw [insertEdge_eq, edgeIds_addEdge, hnew, (h.intern p).edgeIds_intern, h.edgeIds_intern]
  rfl

/-- The graph with the given pairs of names as its edges. -/
def ofPairs (ps : List (String × String)) : Graph :=
  ps.foldl (fun g e => g.insertEdge e.1 e.2) empty

theorem ofPairs_concat (ps : List (String × String)) (p c : String) :
    ofPairs (ps ++ [(p, c)]) = (ofPairs ps).insertEdge p c := by
  unfold ofPairs
  rw [List.foldl_append]
  rfl

theorem built_ofPairs (ps : List (String × String)) : (ofPairs ps).Built := by
  induction ps using List.reverseRecOn with
  | nil => exact Built.empty
  | append_singleton ps e ih =>
    rw [ofPairs_concat]
    exact ih.insertEdge e.1 e.2

/-- The edges of the graph of some pairs are these pairs, in order. -/
theorem edgeIds_ofPairs (ps : List (String × String)) : (ofPairs ps).edgeIds = ps := by
  induction ps using List.reverseRecOn with
  | nil => rfl
  | append_singleton ps e ih =>
    rw [ofPairs_concat, (built_ofPairs ps).linked.edgeIds_insertEdge, ih]

theorem eraseDups_concat (names : List String) (name : String) :
    (names ++ [name]).eraseDups = addName names.eraseDups name := by
  rw [List.eraseDups_append, addName]
  by_cases h : name ∈ names
  · rw [if_pos (List.mem_eraseDups.2 h)]
    simp [List.removeAll, h]
  · rw [if_neg (fun hm => h (List.mem_eraseDups.1 hm))]
    simp [List.removeAll, h, List.eraseDups_cons]

/-- The nodes of the graph of some pairs are the names in them, in order of first appearance. -/
theorem ids_ofPairs (ps : List (String × String)) :
    (ofPairs ps).ids = (ps.flatMap fun e => [e.1, e.2]).eraseDups := by
  induction ps using List.reverseRecOn with
  | nil => rfl
  | append_singleton ps e ih =>
    rw [ofPairs_concat, ids_insertEdge, ih, List.flatMap_append, List.flatMap_singleton,
      show [e.1, e.2] = [e.1] ++ [e.2] from rfl, ← List.append_assoc, eraseDups_concat,
      eraseDups_concat]

end TreeCorpus.Graph
