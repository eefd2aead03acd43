import Mathlib.Algebra.Order.BigOperators.Group.Finset
import TreeCorpus.Proofs.Graph.Depth

/-!
# The figures of a graph that was read

Every node of a graph that was read stands at an end of an edge, and no edge joins a node to itself,
so the statistics count no isolated nodes, no loops and at most twice as many nodes as edges. In a
tree an edge leads one level down (`Levels`). Levels grow along a walk, so a walk repeats no node and
is at most as long as the tree is deep (`Levels.longestPath`), and from every node a walk ends in a
leaf. The walks from the root to the leaves thus cover all nodes, which bounds their number by the
leaves and the depth (`Levels.size_nodes_le`). The statistics say all this (`stats_of_parse`).
-/

namespace TreeCorpus.Graph

open Number

variable {g : Graph} {root r u v w d : Nat} {ps : List Nat} {level : Nat → Nat}

/-! ## Ends of edges -/

theorem selfLoops_eq_zero (hl : g.Linked) (hne : ∀ e ∈ g.edgeIds, e.1 ≠ e.2) :
    g.stats.selfLoops = 0 := by
  show g.edges.countP (fun e => e.1 == e.2) = 0
  rw [← Array.countP_toList, List.countP_eq_zero]
  rintro ⟨u, v⟩ he huv
  obtain rfl : u = v := eq_of_beq huv
  obtain ⟨p, c, hpc⟩ := hl.exists_namesOf he
  obtain ⟨hp, hc⟩ := namesOf_eq_some_iff.1 hpc
  exact hne (p, c) (mem_edgeIds_iff.2 ⟨u, u, he, hp, hc⟩) (Option.some.inj (hp.symm.trans hc))

/-- Every name stands at an end of an edge. -/
def NamesOnEdges (g : Graph) : Prop := ∀ id ∈ g.ids, ∃ e ∈ g.edgeIds, id = e.1 ∨ id = e.2

namespace NamesOnEdges

theorem exists_hasEdge (h : g.NamesOnEdges) (hv : v < g.nodes.size) :
    ∃ u, g.HasEdge u v ∨ g.HasEdge v u := by
  have hid : g.ids[v]? = some _ := List.getElem?_eq_getElem (length_ids g ▸ hv)
  obtain ⟨⟨p, c⟩, he, hend⟩ := h _ (List.mem_of_getElem? hid)
  obtain ⟨i, j, hij, hi, hj⟩ := mem_edgeIds_iff.1 he
  rcases hend with rfl | rfl
  · obtain rfl := getElem?_ids_inj hid hi
    exact ⟨j, Or.inr hij⟩
  · obtain rfl := getElem?_ids_inj hid hj
    exact ⟨i, Or.inl hij⟩

theorem isolatedNodes_eq_zero (h : g.NamesOnEdges) (hl : g.Linked) :
    g.stats.isolatedNodes = 0 := by
  show g.nodes.countP (fun n => n.inDegree == 0 && n.children.isEmpty) = 0
  rw [← Array.countP_toList, List.countP_eq_zero]
  intro n hn hlone
  obtain ⟨v, hv⟩ := List.mem_iff_getElem?.1 hn
  rw [Array.getElem?_toList] at hv
  rw [Bool.and_eq_true, beq_iff_eq, hl.inDegree_eq hv, ← Array.isEmpty_toList, hl.children_eq hv,
    List.isEmpty_iff] at hlone
  obtain ⟨u, hu | hu⟩ := h.exists_hasEdge (Array.getElem?_eq_some_iff.1 hv).1
  · exact edgesInto_eq_zero_iff.1 hlone.1 u hu
  · exact List.ne_nil_of_mem (mem_targets_iff.2 hu) hlone.2

/-- Each edge has two ends. -/
theorem size_nodes_le (h : g.NamesOnEdges) (hl : g.Linked) : g.nodes.size ≤ 2 * g.edges.size := by
  have hsub : g.ids ⊆ g.edgeIds.map Prod.fst ++ g.edgeIds.map Prod.snd := by
    intro id hid
    obtain ⟨e, he, rfl | rfl⟩ := h id hid
    · exact List.mem_append_left _ (List.mem_map_of_mem he)
    · exact List.mem_append_right _ (List.mem_map_of_mem he)
  have hle := (g.nodup_ids.subperm hsub).length_le
  rw [length_ids, List.length_append, List.length_map, List.length_map, hl.length_edgeIds] at hle
  omega

end NamesOnEdges

/-! ## Levels -/

/-- An edge leads one level down from the root, and the deepest node is at level `d`. -/
structure Levels (g : Graph) (root : Nat) (level : Nat → Nat) (d : Nat) : Prop where
  root_eq : level root = 0
  of_hasEdge : ∀ {u v}, g.HasEdge u v → level v = level u + 1
  le : ∀ i < g.nodes.size, level i ≤ d
  exists_eq : ∃ i < g.nodes.size, level i = d

/-- The depths of the places in a layout are levels, and the statistics report the deepest. -/
theorem exists_levels {α : Type} [Arithmetic α] (h : g.RootedAt root) (hl : g.Linked)
    (m : LayoutMeasures α) :
    ∃ d, g.Levels root (fun i => (g.placeAt m root i).depth) d ∧ g.stats.depth = some d := by
  have hp := places_placeAt h hl m
  obtain ⟨d, hd, hexists, hle⟩ := exists_depth_eq h hl m
  refine ⟨d, ⟨?_, hp.depth_of_hasEdge, hle, hexists⟩, hd⟩
  rw [hp.root_eq, Placement.depth_root]

theorem Walk.lt_size (hw : g.Walk r ps) (hl : g.Linked) (hr : r < g.nodes.size) :
    ∀ v ∈ ps, v < g.nodes.size := by
  induction hw with
  | start =>
    intro v hv
    rwa [List.mem_singleton.1 hv]
  | step _ he ih =>
    intro v hv
    rcases List.mem_cons.1 hv with rfl | hv
    · exact (hl.inRange he).2
    · exact ih v hv

theorem Walk.start_mem (hw : g.Walk r ps) : r ∈ ps := by
  induction hw with
  | start => exact List.mem_singleton_self r
  | step _ _ ih => exact List.mem_cons_of_mem _ ih

namespace Levels

/-- A walk of `n` edges leads `n` levels down. -/
theorem level_eq (h : g.Levels root level d) (hw : g.Walk r (v :: ps)) :
    level v = level r + ps.length := by
  induction ps generalizing v with
  | nil =>
    cases hw
    rfl
  | cons u ps ih =>
    cases hw with
    | step hw he => rw [h.of_hasEdge he, ih hw, List.length_cons, Nat.add_assoc]

/-- The later positions of a walk are at deeper levels. -/
theorem pairwise_level (h : g.Levels root level d) (hw : g.Walk r ps) :
    ps.Pairwise fun v u => level u < level v := by
  induction hw with
  | start => exact List.pairwise_singleton _ _
  | @step u v ps _ he ih =>
    have huv := h.of_hasEdge he
    refine List.pairwise_cons.2 ⟨fun w hw => ?_, ih⟩
    rcases List.mem_cons.1 hw with rfl | hw
    · omega
    · have := (List.pairwise_cons.1 ih).1 w hw
      omega

theorem nodup_walk (h : g.Levels root level d) (hw : g.Walk r ps) : ps.Nodup :=
  (h.pairwise_level hw).imp fun hlt he => Nat.ne_of_gt hlt (congrArg level he)

theorem length_le (h : g.Levels root level d) (hl : g.Linked) (hw : g.Walk r ps) :
    ps.length ≤ d + 1 := by
  cases hw with
  | start => exact Nat.le_add_left 1 d
  | @step u v ps hw he =>
    have hv := h.le v (hl.inRange he).2
    have hlevel := h.level_eq (hw.step he)
    simp only [List.length_cons] at hlevel ⊢
    omega

/-- A walk from the root to a node at level `n` has `n` edges. -/
theorem exists_walk (h : g.Levels root level d) (hr : g.RootedAt root) (hv : v < g.nodes.size) :
    ∃ ps, g.Walk root (v :: ps) ∧ ps.length = level v := by
  obtain ⟨ps, hps⟩ := reaches_iff_exists_walk.1 (hr.reaches v hv)
  have hlevel := h.level_eq hps
  rw [h.root_eq, Nat.zero_add] at hlevel
  exact ⟨ps, hps, hlevel.symm⟩

end Levels

/-- The longest directed paths have `d` edges. -/
structure LongestPath (g : Graph) (d : Nat) : Prop where
  exists_path : ∃ r < g.nodes.size, ∃ ps, g.Walk r ps ∧ ps.Nodup ∧ ps.length = d + 1
  length_le : ∀ r ps, g.Walk r ps → ps.length ≤ d + 1

theorem Levels.longestPath (h : g.Levels root level d) (hr : g.RootedAt root) (hl : g.Linked) :
    g.LongestPath d := by
  obtain ⟨v, hv, rfl⟩ := h.exists_eq
  obtain ⟨ps, hps, hlen⟩ := h.exists_walk hr hv
  refine ⟨⟨root, hr.lt_size, v :: ps, hps, h.nodup_walk hps, ?_⟩, fun r qs hqs => h.length_le hl hqs⟩
  rw [List.length_cons, hlen]

/-- A longest path repeats no node. -/
theorem LongestPath.lt_size (h : g.LongestPath d) (hl : g.Linked) : d < g.nodes.size := by
  obtain ⟨r, hr, ps, hw, hn, hlen⟩ := h.exists_path
  have hsub : ps ⊆ List.range g.nodes.size := fun v hv => List.mem_range.2 (hw.lt_size hl hr v hv)
  have hle := (hn.subperm hsub).length_le
  rw [List.length_range] at hle
  omega

/-! ## Leaves -/

/-- The positions that no edge leaves. -/
def leafSet (g : Graph) : Finset Nat := {i ∈ Finset.range g.nodes.size | g.targets i = []}

theorem mem_leafSet_iff : v ∈ g.leafSet ↔ v < g.nodes.size ∧ g.targets v = [] := by
  unfold leafSet
  rw [Finset.mem_filter, Finset.mem_range]

theorem card_leafSet (hl : g.Linked) : g.leafSet.card = g.stats.leaves := by
  have hcard : g.leafSet.card =
      (List.range g.nodes.size).countP fun i => decide (g.targets i = []) :=
    List.countP_eq_length_filter.symm
  have hleaves : g.stats.leaves = g.nodes.toList.countP fun n => n.children.isEmpty :=
    Array.countP_toList.symm
  rw [hcard, hleaves, ← filterMap_getElem?_range g.nodes.toList, List.countP_filterMap,
    Array.length_toList]
  apply List.countP_congr
  intro i hi
  have hn : g.nodes[i]? = some _ := Array.getElem?_eq_getElem (List.mem_range.1 hi)
  rw [Array.getElem?_toList, hn, Option.map_some, Option.getD_some, decide_eq_true_iff,
    ← Array.isEmpty_toList, hl.children_eq hn, List.isEmpty_iff]

/-- From every node a walk leads down to a leaf. -/
theorem Levels.exists_leaf (h : g.Levels root level d) (hl : g.Linked) (hv : v < g.nodes.size) :
    ∃ w ∈ g.leafSet, g.Reaches v w := by
  induction hk : d - level v generalizing v with
  | zero =>
    refine ⟨v, mem_leafSet_iff.2 ⟨hv, List.eq_nil_iff_forall_not_mem.2 fun w hw => ?_⟩, .refl⟩
    have he := mem_targets_iff.1 hw
    have hlevel := h.of_hasEdge he
    have hle := h.le w (hl.inRange he).2
    omega
  | succ k ih =>
    rcases ht : g.targets v with _ | ⟨w, ws⟩
    · exact ⟨v, mem_leafSet_iff.2 ⟨hv, ht⟩, .refl⟩
    · have he : g.HasEdge v w := mem_targets_iff.1 (ht ▸ List.mem_cons_self)
      have hlevel := h.of_hasEdge he
      obtain ⟨x, hx, hreach⟩ := ih (hl.inRange he).2 (by omega)
      exact ⟨x, hx, hreach.head he⟩

/-- The walk from the root to a node passes every node that leads there. -/
theorem RootedAt.mem_of_reaches (h : g.RootedAt root) (hl : g.Linked) (hv : g.Reaches v w)
    (hw : g.Walk root (w :: ps)) : v ∈ w :: ps := by
  induction hv generalizing ps with
  | refl => exact List.mem_cons_self
  | tail _ he ih =>
    cases hw with
    | start => exact absurd he h.not_hasEdge_root
    | step hw hu =>
      obtain rfl := h.parent_unique hl hu he
      exact List.mem_cons_of_mem _ (ih hw)

/-- At most `d` nodes below the root lead to a node. -/
theorem Levels.exists_way (h : g.Levels root level d) (hr : g.RootedAt root) (hl : g.Linked)
    (hw : w < g.nodes.size) :
    ∃ way : Finset Nat, way.card ≤ d ∧ ∀ v, g.Reaches v w → v ≠ root → v ∈ way := by
  obtain ⟨ps, hps, hlen⟩ := h.exists_walk hr hw
  refine ⟨(w :: ps).toFinset.erase root, ?_, fun v hv hne => ?_⟩
  · have hle := List.toFinset_card_le (w :: ps)
    have hd := h.le w hw
    rw [List.length_cons, hlen] at hle
    rw [Finset.card_erase_of_mem (List.mem_toFinset.2 hps.start_mem)]
    omega
  · exact Finset.mem_erase.2 ⟨hne, List.mem_toFinset.2 (hr.mem_of_reaches hl hv hps)⟩

/-- The walks from the root to the leaves cover all nodes. -/
theorem Levels.size_nodes_le (h : g.Levels root level d) (hr : g.RootedAt root) (hl : g.Linked) :
    g.nodes.size ≤ 1 + g.stats.leaves * d := by
  have hways : ∀ w ∈ g.leafSet,
      ∃ way : Finset Nat, way.card ≤ d ∧ ∀ v, g.Reaches v w → v ≠ root → v ∈ way :=
    fun w hw => h.exists_way hr hl (mem_leafSet_iff.1 hw).1
  choose! way hcard hmem using hways
  have hcover : (Finset.range g.nodes.size).erase root ⊆ g.leafSet.biUnion way := by
    intro v hv
    obtain ⟨hne, hv⟩ := Finset.mem_erase.1 hv
    obtain ⟨w, hw, hreach⟩ := h.exists_leaf hl (Finset.mem_range.1 hv)
    exact Finset.mem_biUnion.2 ⟨w, hw, hmem w hw v hreach hne⟩
  have hle := (Finset.card_le_card hcover).trans (Finset.card_biUnion_le_card_mul _ _ d hcard)
  rw [Finset.card_erase_of_mem (Finset.mem_range.2 hr.lt_size), Finset.card_range,
    card_leafSet hl] at hle
  omega

theorem Levels.leaves_pos (h : g.Levels root level d) (hr : g.RootedAt root) (hl : g.Linked) :
    1 ≤ g.stats.leaves := by
  obtain ⟨w, hw, -⟩ := h.exists_leaf hl hr.lt_size
  rw [← card_leafSet hl]
  exact Finset.card_pos.2 ⟨w, hw⟩

/-- An edge leaves the root of a tree that has one. -/
theorem RootedAt.leaves_lt (h : g.RootedAt root) (hl : g.Linked) (hpos : 0 < g.edges.size) :
    g.stats.leaves < g.nodes.size := by
  have hroot : root ∉ g.leafSet := by
    intro hmem
    obtain ⟨u, v, huv⟩ := exists_hasEdge_of_size_pos hpos
    -- the walk to the end of an edge starts with an edge out of the root
    rcases Relation.ReflTransGen.cases_head (h.reaches v (hl.inRange huv).2) with rfl | ⟨w, hw, -⟩
    · exact h.not_hasEdge_root huv
    · exact List.ne_nil_of_mem (mem_targets_iff.2 hw) (mem_leafSet_iff.1 hmem).2
  have hsub : g.leafSet ⊂ Finset.range g.nodes.size :=
    (Finset.ssubset_iff_of_subset (Finset.filter_subset _ _)).2
      ⟨root, Finset.mem_range.2 h.lt_size, hroot⟩
  have hlt := Finset.card_lt_card hsub
  rwa [card_leafSet hl, Finset.card_range] at hlt

/-! ## The figures -/

/-- The descent from the root that counts the edges on the way. -/
def edgeCounts (g : Graph) (root : Nat) : Descent Nat :=
  Descent.run g (fun n _ _ => n + 1) g.nodes.size (Descent.start root 0)

/-- The figures of a tree whose depth is `d`. -/
structure TreeFigures (g : Graph) (root d : Nat) : Prop where
  depth_eq : g.stats.depth = some d
  edges_eq : g.stats.edges + 1 = g.stats.nodes
  leaves_pos : 1 ≤ g.stats.leaves
  leaves_lt : g.stats.leaves < g.stats.nodes
  depth_pos : 1 ≤ d
  depth_lt : d < g.stats.nodes
  nodes_le : g.stats.nodes ≤ 1 + g.stats.leaves * d
  longestPath : g.LongestPath d
  /-- A descent without marks ends, and the greatest count that it meets is the depth. -/
  stack_edgeCounts : (g.edgeCounts root).stack = []
  max_edgeCounts : ((g.edgeCounts root).taken.map Prod.snd).foldl max 0 = d

namespace Levels

theorem depth_pos (h : g.Levels root level d) (hl : g.Linked) (hpos : 0 < g.edges.size) :
    1 ≤ d := by
  obtain ⟨u, v, huv⟩ := exists_hasEdge_of_size_pos hpos
  have hv := h.le v (hl.inRange huv).2
  rw [h.of_hasEdge huv] at hv
  omega

theorem finishes (h : g.Levels root level d) (hr : g.RootedAt root) (hl : g.Linked) :
    Descent.Finishes g (fun n _ _ => n + 1) root 0 level :=
  Descent.finishes_of_tree hr hl ⟨h.root_eq, fun hk => h.of_hasEdge (hasEdge_of_target hk)⟩

theorem max_edgeCounts (h : g.Levels root level d) (hr : g.RootedAt root) (hl : g.Linked) :
    ((g.edgeCounts root).taken.map Prod.snd).foldl max 0 = d := by
  have hmem {n : Nat} : n ∈ (g.edgeCounts root).taken.map Prod.snd ↔
      ∃ v < g.nodes.size, level v = n := (h.finishes hr hl).mem_states_iff
  have hle : ∀ n ∈ (g.edgeCounts root).taken.map Prod.snd, n ≤ d := by
    intro n hn
    obtain ⟨v, hv, rfl⟩ := hmem.1 hn
    exact h.le v hv
  rw [List.foldl_max, List.max?_eq_some_iff.2 ⟨hmem.2 h.exists_eq, hle⟩, Option.getD_some,
    max_eq_right (Nat.zero_le d)]

theorem treeFigures (h : g.Levels root level d) (hr : g.RootedAt root) (hl : g.Linked)
    (hpos : 0 < g.edges.size) (hd : g.stats.depth = some d) : g.TreeFigures root d where
  depth_eq := hd
  edges_eq := hr.size_edges hl
  leaves_pos := h.leaves_pos hr hl
  leaves_lt := hr.leaves_lt hl hpos
  depth_pos := h.depth_pos hl hpos
  depth_lt := (h.longestPath hr hl).lt_size hl
  nodes_le := h.size_nodes_le hr hl
  longestPath := h.longestPath hr hl
  stack_edgeCounts := (h.finishes hr hl).stack_eq
  max_edgeCounts := h.max_edgeCounts hr hl

end Levels

theorem isSome_depth_iff : g.stats.depth.isSome = true ↔ ∃ r, g.treeRoot = .ok r := by
  show g.depth.isSome = true ↔ _
  unfold depth
  rcases g.treeRoot with v | r
  · simp
  · simp

/-- A graph that was read has no isolated nodes and no loops and at most two nodes for each edge.
Just the trees have a depth; it is the number of edges of a longest directed path, and it bounds the
nodes together with the leaves. -/
theorem stats_of_parse {text origin : String} (hg : Graph.parse text origin = .ok g) :
    g.stats.isolatedNodes = 0 ∧ g.stats.selfLoops = 0 ∧ g.stats.nodes ≤ 2 * g.stats.edges ∧
      (g.stats.depth.isSome = true ↔ ∃ r, g.treeRoot = .ok r) ∧
      ∀ r, g.treeRoot = .ok r → ∃ d, g.TreeFigures r d := by
  have hpos := size_edges_pos_of_parse hg
  obtain ⟨hlists, rfl⟩ := parse_eq_ok_iff.1 hg
  have hl := (built_ofPairs (pairs (rows text))).linked
  have hedges := edgeIds_ofPairs (pairs (rows text))
  have hends : (ofPairs (pairs (rows text))).NamesOnEdges := fun id hid =>
    hedges.symm ▸ exists_pair_of_mem_ids hid
  refine ⟨hends.isolatedNodes_eq_zero hl, selfLoops_eq_zero hl (hedges.symm ▸ hlists.ne_of_mem),
    hends.size_nodes_le hl, isSome_depth_iff, fun r hr => ?_⟩
  have hroot := (treeRoot_eq_ok_iff hl).1 hr
  -- any measures do, since the depths of the places do not depend on them
  obtain ⟨d, hlevels, hd⟩ := exists_levels hroot hl
    (⟨Binary.zero false, Binary.zero false⟩ : LayoutMeasures Double)
  exact ⟨d, hlevels.treeFigures hroot hl hpos hd⟩

/-- A tree whose root has one child and whose second level forks. -/
theorem stats_of_parse_fork : ∃ g, Graph.parse "a b\nb c\nb d" "fork" = .ok g ∧
    g.treeRoot = .ok 0 ∧ g.stats.nodes = 4 ∧ g.stats.isolatedNodes = 0 ∧ g.stats.selfLoops = 0 ∧
    ∃ d, g.TreeFigures 0 d := by
  have hlists : ListsEdges (rows "a b\nb c\nb d") := by decide
  have hg := parse_of_listsEdges "fork" hlists
  have hnames : ((pairs (rows "a b\nb c\nb d")).flatMap fun e => [e.1, e.2]).eraseDups =
      ["a", "b", "c", "d"] := by decide
  have hroot := treeRoot_of_rootedAt (built_ofPairs _).linked
    (rootedAt_ofPairs hnames (by decide) (by decide) (by decide))
  have hsize := (congrArg List.length ((ids_ofPairs _).trans hnames)).symm.trans (length_ids _)
  obtain ⟨hisolated, hloops, -, -, hfigures⟩ := stats_of_parse hg
  exact ⟨_, hg, hroot, hsize.symm, hisolated, hloops, hfigures 0 hroot⟩

end TreeCorpus.Graph
