import TreeCorpus.Graph.Tree
import TreeCorpus.Proofs.Graph.EdgeList
import TreeCorpus.Proofs.Graph.Traversal

/-!
# Telling trees

A graph is either a tree at one of its nodes or has a first violation (`FirstViolation`), and the
test reports which (`treeRoot_exact`). The test only counts edges and traverses the graph once;
for graphs that were read, whose edges are distinct, this is the same as asking that every node
ends exactly one walk from the root.
-/

namespace TreeCorpus.Graph

variable {g : Graph} {P : Nat → Prop} {i j r : Nat} {id : String} {names names' : List String}

/-! ## Distinct edges -/

/-- Edges with distinct pairs of names are distinct. -/
theorem Linked.nodup_edges (h : g.Linked) (hn : g.edgeIds.Nodup) : g.edges.toList.Nodup := by
  rw [edgeIds_eq_filterMap, List.Nodup, List.pairwise_filterMap] at hn
  refine hn.imp_of_mem fun {a b} ha _ hab e => ?_
  obtain ⟨p, c, hpc⟩ := h.exists_namesOf ha
  exact hab (p, c) hpc (p, c) (e ▸ hpc) rfl

/-- A graph that was read comes from inserting distinct edges. -/
theorem built_and_nodup_of_parse {text origin : String} (h : Graph.parse text origin = .ok g) :
    g.Built ∧ g.edges.toList.Nodup := by
  obtain ⟨hrows, rfl⟩ := parse_eq_ok_iff.1 h
  have hb := built_ofPairs (pairs (rows text))
  refine ⟨hb, hb.linked.nodup_edges ?_⟩
  rw [edgeIds_ofPairs]
  exact hrows.nodup

/-- The graph of an edge list has an edge. -/
theorem size_edges_pos_of_parse {text origin : String} (h : Graph.parse text origin = .ok g) :
    0 < g.edges.size := by
  obtain ⟨hlists, rfl⟩ := parse_eq_ok_iff.1 h
  have hne := (listsEdges_iff.1 hlists).2
  rw [← (built_ofPairs _).linked.length_edgeIds, edgeIds_ofPairs]
  exact List.length_pos_iff.2 hne

theorem exists_hasEdge_of_size_pos (h : 0 < g.edges.size) : ∃ u v, g.HasEdge u v := by
  obtain ⟨⟨u, v⟩, huv⟩ := List.exists_mem_of_length_pos (Array.length_toList.symm ▸ h)
  exact ⟨u, v, huv⟩

theorem size_nodes_pos_of_parse {text origin : String} (h : Graph.parse text origin = .ok g) :
    0 < g.nodes.size := by
  obtain ⟨u, v, huv⟩ := exists_hasEdge_of_size_pos (size_edges_pos_of_parse h)
  exact Nat.zero_lt_of_lt ((built_and_nodup_of_parse h).1.linked.inRange huv).1

/-! ## Trees of pairs -/

/-- Pairs that lead to later names, one to each name but the first, make a tree. -/
theorem rootedAt_ofPairs {ps : List (String × String)}
    (hids : (ps.flatMap fun e => [e.1, e.2]).eraseDups = names) (hne : names ≠ [])
    (hlater : ∀ e ∈ ps, names.idxOf e.1 < names.idxOf e.2)
    (hother : ∀ i < names.length, i ≠ 0 → (ps.countP fun e => names.idxOf e.2 == i) = 1) :
    (ofPairs ps).RootedAt 0 := by
  have hids : (ofPairs ps).ids = names := (ids_ofPairs ps).trans hids
  have hsize : (ofPairs ps).nodes.size = names.length := by rw [← length_ids, hids]
  have hedges := (built_ofPairs ps).linked.toList_edges_eq
  rw [hids, edgeIds_ofPairs] at hedges
  refine .of_increasing (hsize ▸ List.length_pos_iff.2 hne) (fun e he => ?_) fun i hi hzero => ?_
  · rw [hedges] at he
    obtain ⟨p, hp, rfl⟩ := List.mem_map.1 he
    exact hlater p hp
  · rw [edgesInto, hedges, List.countP_map]
    exact hother i (hsize ▸ hi) hzero

/-! ## Names in node order -/

/-- The names of the positions with a property, in node order. -/
structure ListsNames (g : Graph) (P : Nat → Prop) (names : List String) : Prop where
  sublist : names.Sublist g.ids
  mem_iff : ∀ {i id}, g.ids[i]? = some id → (id ∈ names ↔ P i)

theorem ListsNames.unique (h : g.ListsNames P names) (h' : g.ListsNames P names') :
    names = names' := by
  have hmem {names₁ names₂ : List String} (h₁ : g.ListsNames P names₁)
      (h₂ : g.ListsNames P names₂) (id : String) (hid : id ∈ names₁) : id ∈ names₂ := by
    obtain ⟨i, hi⟩ := List.mem_iff_getElem?.1 (h₁.sublist.subset hid)
    exact (h₂.mem_iff hi).2 ((h₁.mem_iff hi).1 hid)
  refine (g.nodup_ids.perm_iff_eq_of_sublist h.sublist h'.sublist).1 ?_
  exact (List.perm_ext_iff_of_nodup (g.nodup_ids.sublist h.sublist)
    (g.nodup_ids.sublist h'.sublist)).2 fun id => ⟨hmem h h' id, hmem h' h id⟩

theorem filterMap_getElem?_range {α : Type} (l : List α) :
    (List.range l.length).filterMap (l[·]?) = l := by
  induction l with
  | nil => rfl
  | cons a l ih =>
    rw [List.length_cons, List.range_succ_eq_map, List.filterMap_cons, List.filterMap_map]
    exact congrArg (a :: ·) ih

theorem idsAt_range (g : Graph) : g.idsAt (List.range g.nodes.size) = g.ids := by
  have hf : g.idAt = fun i => g.ids[i]? := funext (idAt_eq_getElem? g)
  unfold idsAt
  rw [hf, ← length_ids]
  exact filterMap_getElem?_range g.ids

/-- Selecting positions from left to right lists their names in node order. -/
theorem listsNames_idsAt {q : Nat → Bool} (hq : ∀ i < g.nodes.size, q i = true ↔ P i) :
    g.ListsNames P (g.idsAt ((List.range g.nodes.size).filter q)) := by
  constructor
  · rw [← idsAt_range]
    exact (List.filter_sublist).filterMap g.idAt
  · intro i id hi
    have hlt := lt_size_of_getElem?_ids hi
    rw [← hq i hlt, idsAt, List.mem_filterMap]
    constructor
    · rintro ⟨k, hk, hid⟩
      unfold idAt at hid
      rw [← idAt_eq_getElem?, idAt] at hi
      rw [g.id_inj hi hid]
      exact (List.mem_filter.1 hk).2
    · intro h
      exact ⟨i, List.mem_filter.2 ⟨List.mem_range.2 hlt, h⟩, (idAt_eq_getElem? g i).trans hi⟩

/-! ## What the test finds -/

/-- The only node without an edge into it. -/
structure OnlySource (g : Graph) (r : Nat) : Prop where
  lt_size : r < g.nodes.size
  edgesInto_root : g.edgesInto r = 0
  eq_of_edgesInto : ∀ i < g.nodes.size, g.edgesInto i = 0 → i = r

/-- The violations, each with what the ones before it leave open. -/
inductive FirstViolation (g : Graph) : TreeViolation → Prop where
  | empty : g.nodes.size = 0 → FirstViolation g .empty
  | noRoot : 0 < g.nodes.size → (∀ i < g.nodes.size, g.edgesInto i ≠ 0) → FirstViolation g .noRoot
  | multipleRoots {i j : Nat} {names : List String} : i < j → j < g.nodes.size →
      g.edgesInto i = 0 → g.edgesInto j = 0 →
      g.ListsNames (fun k => g.edgesInto k = 0) names → FirstViolation g (.multipleRoots names)
  | multipleParents {r i : Nat} {id : String} : g.OnlySource r → g.ids[i]? = some id →
      2 ≤ g.edgesInto i → (∀ j < i, g.edgesInto j ≤ 1) → FirstViolation g (.multipleParents id)
  | unreachable {r i : Nat} {names : List String} : g.OnlySource r → (∀ j, g.edgesInto j ≤ 1) →
      i < g.nodes.size → ¬ g.Reaches r i → g.ListsNames (fun k => ¬ g.Reaches r k) names →
      FirstViolation g (.unreachable names)

theorem RootedAt.onlySource (h : g.RootedAt r) : g.OnlySource r := by
  refine ⟨h.lt_size, h.edgesInto_root, fun i hi h0 => ?_⟩
  by_contra hne
  rw [h.edgesInto_other i hi hne] at h0
  omega

/-- An only source that reaches every node along single edges is the root of a tree. -/
theorem OnlySource.rootedAt (h : g.OnlySource r) (h1 : ∀ i, g.edgesInto i ≤ 1)
    (hr : ∀ i < g.nodes.size, g.Reaches r i) : g.RootedAt r := by
  refine ⟨h.lt_size, h.edgesInto_root, fun i hi hne => ?_, hr⟩
  have hpos : g.edgesInto i ≠ 0 := fun h0 => hne (h.eq_of_edgesInto i hi h0)
  have hle := h1 i
  omega

/-! ## The parts of the test -/

theorem any_inDegree_iff (hl : g.Linked) (hi : i < g.nodes.size) :
    ((g.nodes[i]?).any (·.inDegree == 0)) = true ↔ g.edgesInto i = 0 := by
  have hn : g.nodes[i]? = some g.nodes[i] := Array.getElem?_eq_getElem hi
  rw [hn, Option.any_some, beq_iff_eq, hl.inDegree_eq hn]

theorem mem_sources_iff (hl : g.Linked) : i ∈ g.sources ↔ i < g.nodes.size ∧ g.edgesInto i = 0 := by
  unfold sources
  rw [List.mem_filter, List.mem_range]
  exact and_congr_right fun hi => any_inDegree_iff hl hi

theorem listsNames_sources (hl : g.Linked) :
    g.ListsNames (fun i => g.edgesInto i = 0) (g.idsAt g.sources) :=
  listsNames_idsAt fun _ hi => any_inDegree_iff hl hi

theorem sources_eq_singleton_iff (hl : g.Linked) : g.sources = [r] ↔ g.OnlySource r := by
  constructor
  · intro h
    have hr := (mem_sources_iff hl).1 (h ▸ List.mem_singleton_self r)
    refine ⟨hr.1, hr.2, fun i hi h0 => ?_⟩
    exact List.mem_singleton.1 (h ▸ (mem_sources_iff hl).2 ⟨hi, h0⟩)
  · intro h
    have hn : g.sources.Nodup := List.nodup_range.filter _
    refine List.perm_singleton.1 ((List.perm_ext_iff_of_nodup hn (List.nodup_singleton r)).2 ?_)
    intro i
    rw [mem_sources_iff hl, List.mem_singleton]
    constructor
    · exact fun hi => h.eq_of_edgesInto i hi.1 hi.2
    · rintro rfl
      exact ⟨h.lt_size, h.edgesInto_root⟩

theorem find?_inDegree_eq_none_iff (hl : g.Linked) :
    g.nodes.find? (1 < ·.inDegree) = none ↔ ∀ i, g.edgesInto i ≤ 1 := by
  rw [Array.find?_eq_none]
  constructor
  · intro h i
    rcases Nat.lt_or_ge i g.nodes.size with hi | hi
    · have := h g.nodes[i] (Array.getElem_mem hi)
      rw [hl.inDegree_eq (Array.getElem?_eq_getElem hi), decide_eq_true_iff] at this
      omega
    · rw [hl.edgesInto_of_le hi]
      omega
  · intro h n hn
    obtain ⟨i, hi⟩ := Array.mem_iff_getElem?.1 hn
    have := h i
    rw [hl.inDegree_eq hi, decide_eq_true_iff]
    omega

/-- The node with several parents that is reported is the first one. -/
theorem find?_inDegree_eq_some_iff (hl : g.Linked) :
    (g.nodes.find? (1 < ·.inDegree)).map Node.id = some id ↔
      ∃ i, g.ids[i]? = some id ∧ 2 ≤ g.edgesInto i ∧ ∀ j < i, g.edgesInto j ≤ 1 := by
  have hdeg {i : Nat} (hi : i < g.nodes.size) : g.nodes[i].inDegree = g.edgesInto i :=
    hl.inDegree_eq (Array.getElem?_eq_getElem hi)
  have hid {i : Nat} (hi : i < g.nodes.size) : g.ids[i]? = some g.nodes[i].id := by
    rw [← idAt_eq_getElem?, idAt, Array.getElem?_eq_getElem hi]
    rfl
  rw [Option.map_eq_some_iff]
  constructor
  · rintro ⟨n, hn, rfl⟩
    obtain ⟨hp, i, hi, rfl, hfirst⟩ := Array.find?_eq_some_iff_getElem.1 hn
    rw [hdeg hi, decide_eq_true_iff] at hp
    refine ⟨i, hid hi, hp, fun j hj => ?_⟩
    have := hfirst j hj
    rw [hdeg (hj.trans hi), Bool.not_eq_true', decide_eq_false_iff_not] at this
    omega
  · rintro ⟨i, hi, h2, hfirst⟩
    have hlt := lt_size_of_getElem?_ids hi
    refine ⟨g.nodes[i], Array.find?_eq_some_iff_getElem.2 ⟨?_, i, hlt, rfl, fun j hj => ?_⟩, ?_⟩
    · rw [hdeg hlt, decide_eq_true_iff]
      exact h2
    · have := hfirst j hj
      rw [hdeg (hj.trans hlt), Bool.not_eq_true', decide_eq_false_iff_not]
      omega
    · exact Option.some.inj ((hid hlt).symm.trans hi)

theorem unreachable_eq_nil_iff (hl : g.Joined) (hr : r < g.nodes.size) :
    g.unreachable r = [] ↔ ∀ i < g.nodes.size, g.Reaches r i := by
  rw [List.eq_nil_iff_forall_not_mem]
  apply forall_congr'
  intro i
  rw [mem_unreachable_iff hl hr, not_and, not_not]

/-- What a finished traversal did not visit are the nodes that are not reached, in node order. -/
theorem listsNames_of_explores {t : Traversal} (h : Traversal.Explores g r t) (hs : t.stack = []) :
    g.ListsNames (fun i => ¬ g.Reaches r i)
      (g.idsAt ((List.range g.nodes.size).filter t.isNew)) :=
  listsNames_idsAt fun _ hi => (h.isNew_iff_not_reaches hs).trans (and_iff_right hi)

theorem listsNames_unreachable (hl : g.Joined) (hr : r < g.nodes.size) :
    g.ListsNames (fun i => ¬ g.Reaches r i) (g.idsAt (g.unreachable r)) :=
  listsNames_of_explores (explores_traverse hl hr) (stack_traverse hl hr)

/-! ## The whole test -/

theorem isEmpty_nodes_of_lt (hi : i < g.nodes.size) : ¬ g.nodes.isEmpty = true := by
  rw [Array.isEmpty_iff_size_eq_zero]
  omega

theorem treeRoot_of_rootedAt (hl : g.Linked) (h : g.RootedAt r) : g.treeRoot = .ok r := by
  have hs := (sources_eq_singleton_iff hl).2 h.onlySource
  have hp := (find?_inDegree_eq_none_iff hl).2 (h.edgesInto_le_one hl)
  have hu := (unreachable_eq_nil_iff hl.joined h.lt_size).2 h.reaches
  unfold treeRoot
  rw [if_neg (isEmpty_nodes_of_lt h.lt_size), hs]
  simp only [hp, hu]

theorem treeRoot_of_firstViolation (hl : g.Linked) {v : TreeViolation} (h : g.FirstViolation v) :
    g.treeRoot = .error v := by
  cases h with
  | empty h0 => exact if_pos (Array.isEmpty_iff_size_eq_zero.2 h0)
  | noRoot hpos h0 =>
    have hs : g.sources = [] := List.eq_nil_iff_forall_not_mem.2 fun i hi =>
      h0 i ((mem_sources_iff hl).1 hi).1 ((mem_sources_iff hl).1 hi).2
    unfold treeRoot
    rw [if_neg (isEmpty_nodes_of_lt hpos), hs]
  | multipleRoots hij hj hi0 hj0 hn =>
    have hi := (mem_sources_iff hl).2 ⟨hij.trans hj, hi0⟩
    have hj' := (mem_sources_iff hl).2 ⟨hj, hj0⟩
    unfold treeRoot
    rw [if_neg (isEmpty_nodes_of_lt hj), hn.unique (listsNames_sources hl)]
    rcases hs : g.sources with _ | ⟨a, _ | ⟨b, l⟩⟩
    · rw [hs] at hi
      exact absurd hi List.not_mem_nil
    · rw [hs, List.mem_singleton] at hi hj'
      omega
    · rfl
  | multipleParents hs hid h2 hfirst =>
    obtain ⟨n, hn, rfl⟩ := Option.map_eq_some_iff.1
      ((find?_inDegree_eq_some_iff hl).2 ⟨_, hid, h2, hfirst⟩)
    unfold treeRoot
    rw [if_neg (isEmpty_nodes_of_lt hs.lt_size), (sources_eq_singleton_iff hl).2 hs]
    simp only [hn]
  | unreachable hs h1 hi hlost hn =>
    have hmem := (mem_unreachable_iff hl.joined hs.lt_size).2 ⟨hi, hlost⟩
    have hp := (find?_inDegree_eq_none_iff hl).2 h1
    unfold treeRoot
    rw [if_neg (isEmpty_nodes_of_lt hs.lt_size), (sources_eq_singleton_iff hl).2 hs,
      hn.unique (listsNames_unreachable hl.joined hs.lt_size)]
    simp only [hp]
    rcases hu : g.unreachable _ with _ | ⟨a, l⟩
    · rw [hu] at hmem
      exact absurd hmem List.not_mem_nil
    · rfl

/-- Every graph is a tree or violates the conditions for one. -/
theorem rootedAt_or_firstViolation (hl : g.Linked) :
    (∃ r, g.RootedAt r) ∨ ∃ v, g.FirstViolation v := by
  rcases Nat.eq_zero_or_pos g.nodes.size with h0 | hpos
  · exact Or.inr ⟨_, .empty h0⟩
  rcases hs : g.sources with _ | ⟨a, _ | ⟨b, l⟩⟩
  · refine Or.inr ⟨_, .noRoot hpos fun i hi h0 => ?_⟩
    exact absurd ((mem_sources_iff hl).2 ⟨hi, h0⟩) (by rw [hs]; exact List.not_mem_nil)
  · have ha := (sources_eq_singleton_iff hl).1 hs
    rcases hp : (g.nodes.find? (1 < ·.inDegree)).map Node.id with _ | id
    · have h1 := (find?_inDegree_eq_none_iff hl).1 (Option.map_eq_none_iff.1 hp)
      by_cases hr : ∀ i < g.nodes.size, g.Reaches a i
      · exact Or.inl ⟨a, ha.rootedAt h1 hr⟩
      · simp only [not_forall] at hr
        obtain ⟨i, hi, hlost⟩ := hr
        exact Or.inr ⟨_, .unreachable ha h1 hi hlost (listsNames_unreachable hl.joined ha.lt_size)⟩
    · obtain ⟨i, hi, h2, hfirst⟩ := (find?_inDegree_eq_some_iff hl).1 hp
      exact Or.inr ⟨_, .multipleParents ha hi h2 hfirst⟩
  · -- the sources are selected from left to right
    have hsorted : g.sources.Pairwise (· < ·) := List.pairwise_lt_range.filter _
    rw [hs, List.pairwise_cons] at hsorted
    have ha := (mem_sources_iff hl).1 (hs ▸ List.mem_cons_self)
    have hb := (mem_sources_iff hl).1 (hs ▸ List.mem_cons_of_mem a List.mem_cons_self)
    exact Or.inr ⟨_, .multipleRoots (hsorted.1 b List.mem_cons_self) hb.1 ha.2 hb.2
      (listsNames_sources hl)⟩

theorem treeRoot_eq_ok_iff (hl : g.Linked) : g.treeRoot = .ok r ↔ g.RootedAt r := by
  refine ⟨fun h => ?_, treeRoot_of_rootedAt hl⟩
  rcases rootedAt_or_firstViolation hl with ⟨r', hr⟩ | ⟨v, hv⟩
  · rw [treeRoot_of_rootedAt hl hr] at h
    exact Except.ok.inj h ▸ hr
  · rw [treeRoot_of_firstViolation hl hv] at h
    exact absurd h (by simp)

theorem treeRoot_eq_error_iff (hl : g.Linked) {v : TreeViolation} :
    g.treeRoot = .error v ↔ g.FirstViolation v := by
  refine ⟨fun h => ?_, treeRoot_of_firstViolation hl⟩
  rcases rootedAt_or_firstViolation hl with ⟨r, hr⟩ | ⟨v', hv⟩
  · rw [treeRoot_of_rootedAt hl hr] at h
    exact absurd h (by simp)
  · rw [treeRoot_of_firstViolation hl hv] at h
    exact Except.error.inj h ▸ hv

/-- Testing a graph that was read, or the empty graph, gives the root exactly when it is a tree
there, which then has one edge fewer than nodes, and otherwise the first violation. -/
theorem treeRoot_exact (h : g = empty ∨ ∃ text origin, Graph.parse text origin = .ok g) :
    (∀ r, g.treeRoot = .ok r ↔ g.IsTreeAt r) ∧
    (∀ r, g.treeRoot = .ok r → g.edges.size + 1 = g.nodes.size) ∧
    ∀ v, g.treeRoot = .error v ↔ g.FirstViolation v := by
  have hg : g.Built ∧ g.edges.toList.Nodup := by
    rcases h with rfl | ⟨text, origin, h⟩
    · exact ⟨.empty, List.nodup_nil⟩
    · exact built_and_nodup_of_parse h
  obtain ⟨hb, hn⟩ := hg
  have hl := hb.linked
  refine ⟨fun r => ?_, fun r hr => ?_, fun v => treeRoot_eq_error_iff hl⟩
  · rw [treeRoot_eq_ok_iff hl, isTreeAt_iff_rootedAt hl hn]
  · exact ((treeRoot_eq_ok_iff hl).1 hr).size_edges hl

/-- The test on a text of two edges out of one node. -/
theorem treeRoot_exact_fork : ∃ g, Graph.parse "a b\na c" "fork" = .ok g ∧
    (∀ r, g.treeRoot = .ok r ↔ g.IsTreeAt r) ∧
    (∀ r, g.treeRoot = .ok r → g.edges.size + 1 = g.nodes.size) ∧
    ∀ v, g.treeRoot = .error v ↔ g.FirstViolation v := by
  have hrows : rows "a b\na c" = [["a", "b"], ["a", "c"]] := by decide
  have hlists : ListsEdges (rows "a b\na c") := by
    rw [hrows]
    exact ⟨by decide, by decide, by decide, by decide⟩
  have hg := parse_of_listsEdges "fork" hlists
  exact ⟨_, hg, treeRoot_exact (Or.inr ⟨_, _, hg⟩)⟩

end TreeCorpus.Graph
