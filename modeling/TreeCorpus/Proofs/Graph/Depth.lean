import TreeCorpus.Graph.Stats
import TreeCorpus.Proofs.Graph.Descent
import TreeCorpus.Proofs.Graph.Views

/-!
# The depth of a node

In a tree the parent that a node records is the source of the one edge into it, so the depth of a
place in the layout counts the parent links up to the root (`Places.linksUp_of_reaches`). The
statistics find the same depths (`getElem?_depthsFrom`), and report the greatest. A tree that was
read is laid out completely, and a descent without marks finds the same places
(`layout_complete_of_parse`).
-/

namespace TreeCorpus.Graph

open Number

variable {g : Graph} {root i j u v n n' : Nat} {id p c top : String}

/-! ## Parent links -/

theorem getElem?_ids_inj (hi : g.ids[i]? = some id) (hj : g.ids[j]? = some id) : i = j :=
  Option.some.inj
    ((position_eq_some_iff_getElem?.2 hi).symm.trans (position_eq_some_iff_getElem?.2 hj))

/-- In a tree the parent of a node is the source of the edge into it. -/
theorem RootedAt.parent_eq_some_iff (h : g.RootedAt root) (hl : g.Linked) :
    g.parent c = some p ↔ (p, c) ∈ g.edgeIds := by
  refine ⟨hl.mem_edgeIds_of_parent, fun hmem => ?_⟩
  obtain ⟨q, hq⟩ := hl.exists_parent hmem
  obtain ⟨u, v, he, hu, hv⟩ := mem_edgeIds_iff.1 hmem
  obtain ⟨u', v', he', hu', hv'⟩ := mem_edgeIds_iff.1 (hl.mem_edgeIds_of_parent hq)
  obtain rfl : v' = v := getElem?_ids_inj hv' hv
  obtain rfl : u' = u := h.parent_unique hl he' he
  rw [hq, Option.some.inj (hu'.symm.trans hu)]

/-- The root records no parent. -/
theorem RootedAt.parent_root (h : g.RootedAt root) (hl : g.Linked)
    (htop : g.ids[root]? = some top) : g.parent top = none := by
  rw [Option.eq_none_iff_forall_ne_some]
  intro p hp
  obtain ⟨u, v, he, -, hv⟩ := mem_edgeIds_iff.1 ((h.parent_eq_some_iff hl).1 hp)
  obtain rfl : v = root := getElem?_ids_inj hv htop
  exact h.not_hasEdge_root he

/-- From the node `id` it is `n` parent links up to the node `top`. -/
inductive LinksUp (g : Graph) (top : String) : String → Nat → Prop where
  | here : LinksUp g top top 0
  | up {id p : String} {n : Nat} : g.parent id = some p → LinksUp g top p n →
      LinksUp g top id (n + 1)

/-- Links to a node without a parent are as many on every count. -/
theorem LinksUp.unique (htop : g.parent top = none) (h : g.LinksUp top id n)
    (h' : g.LinksUp top id n') : n = n' := by
  induction h generalizing n' with
  | here =>
    cases h' with
    | here => rfl
    | up hp _ => exact absurd (htop.symm.trans hp) (by simp)
  | up hp _ ih =>
    cases h' with
    | here => exact absurd (htop.symm.trans hp) (by simp)
    | up hp' h' =>
      obtain rfl := Option.some.inj (hp.symm.trans hp')
      rw [ih h']

/-! ## The entries of a layout -/

variable {α : Type} {place : Nat → Placement α}

/-- The layout that puts the node at each position in its place. -/
def layoutOf (g : Graph) (place : Nat → Placement α) : Layout α :=
  ⟨g.ids.mapIdx fun i id => (id, place i)⟩

theorem mem_entries_layoutOf {e : String × Placement α} :
    e ∈ (g.layoutOf place).entries ↔ ∃ i, g.ids[i]? = some e.1 ∧ e.2 = place i := by
  obtain ⟨id, p⟩ := e
  unfold layoutOf
  rw [List.mem_mapIdx]
  constructor
  · rintro ⟨i, hi, heq⟩
    obtain ⟨rfl, rfl⟩ := Prod.mk.inj heq
    exact ⟨i, List.getElem?_eq_getElem hi, rfl⟩
  · rintro ⟨i, hid, hplace⟩
    obtain ⟨hi, hid⟩ := List.getElem?_eq_some_iff.1 hid
    exact ⟨i, hi, Prod.ext hid hplace.symm⟩

theorem map_fst_entries_layoutOf (g : Graph) (place : Nat → Placement α) :
    (g.layoutOf place).entries.map Prod.fst = g.ids := by
  apply List.ext_getElem (by simp [layoutOf])
  intro i hi hi'
  simp [layoutOf]

theorem placement_of_mem {e : String × Placement α} (he : e ∈ (g.layoutOf place).entries) :
    (g.layoutOf place).placement e.1 = some e.2 := by
  obtain ⟨i, hid, hplace⟩ := mem_entries_layoutOf.1 he
  rw [hplace]
  exact placement_mapIdx place g.nodup_ids hid

/-! ## The depth of a place -/

variable [Arithmetic α] {m : LayoutMeasures α} {ps : Array (Option (Placement α))}
  {q : Placement α}

/-- The depth of a place counts the links up to the root. -/
theorem Places.linksUp_of_reaches (hp : g.Places m root place) (h : g.RootedAt root)
    (hl : g.Linked) (htop : g.ids[root]? = some top) (hv : g.Reaches root v)
    (hid : g.ids[v]? = some id) : g.LinksUp top id (place v).depth := by
  induction hv generalizing id with
  | refl =>
    obtain rfl := Option.some.inj (hid.symm.trans htop)
    rw [hp.root_eq, Placement.depth_root]
    exact .here
  | @tail u v _ he ih =>
    have hu : g.ids[u]? = some _ := List.getElem?_eq_getElem
      (show u < g.ids.length from length_ids g ▸ (hl.inRange he).1)
    rw [hp.depth_of_hasEdge he]
    exact .up ((h.parent_eq_some_iff hl).2 (mem_edgeIds_iff.2 ⟨u, v, he, hu, hid⟩)) (ih hu)

/-! ## The depths of the statistics -/

/-- The depth of a place, zero for a node without one. -/
def depthOf (o : Option (Placement α)) : Nat := (o.map Placement.depth).getD 0

/-- Lowering the children of a node that has a place lowers them as placing them does. -/
theorem map_placeChildren (hq : ps[i]? = some (some q)) :
    (g.placeChildren m ps i).map depthOf = g.lowerChildren (ps.map depthOf) i := by
  have hwrite : ∀ (l : List (Nat × Nat)) (xs : Array (Option (Placement α))) (count : Nat),
      (l.foldl (fun ps c => ps.setIfInBounds c.1 (some (q.child m count c.2))) xs).map depthOf =
        l.foldl (fun ds c => ds.setIfInBounds c.1 (q.depth + 1)) (xs.map depthOf) := by
    intro l xs count
    induction l generalizing xs with
    | nil => rfl
    | cons c l ih =>
      rw [List.foldl_cons, List.foldl_cons, ih, Array.map_setIfInBounds]
      rfl
  have hdepth : (ps.map depthOf)[i]?.getD 0 = q.depth := by
    rw [Array.getElem?_map, hq]
    rfl
  have hchildren : g.lowerChildren (ps.map depthOf) i =
      (g.childrenAt i).toList.zipIdx.foldl (fun ds c => ds.setIfInBounds c.1 (q.depth + 1))
        (ps.map depthOf) := by
    unfold lowerChildren
    rw [hdepth, ← Array.foldl_toList]
    conv_lhs => rw [← List.zipIdx_map_fst 0 (g.childrenAt i).toList, List.foldl_map]
  unfold placeChildren
  rw [hq, hchildren]
  exact hwrite _ _ _

/-- The statistics give every node the depth of its place. -/
theorem depthsFrom_eq (h : g.RootedAt root) (hl : g.Linked) (m : LayoutMeasures α) :
    g.depthsFrom root = (g.placeFrom m root).map depthOf := by
  have hstart : ((Array.replicate g.nodes.size none).setIfInBounds root
      (some (Placement.root m))).map depthOf = Array.replicate g.nodes.size 0 := by
    rw [Array.map_setIfInBounds, Array.map_replicate]
    apply Array.ext (by simp)
    intro j hj hj'
    rw [Array.getElem_setIfInBounds (by simpa using hj), Array.getElem_replicate,
      Array.getElem_replicate]
    split
    · exact Placement.depth_root m
    · rfl
  have hfold : ∀ done later, g.visitOrder root = done ++ later →
      done.foldl g.lowerChildren (Array.replicate g.nodes.size 0) =
        (done.foldl (g.placeChildren m) ((Array.replicate g.nodes.size none).setIfInBounds root
          (some (Placement.root m)))).map depthOf := by
    intro done later hv
    induction done using List.reverseRecOn generalizing later with
    | nil => exact hstart.symm
    | append_singleton done i ih =>
      rw [List.append_assoc] at hv
      -- a node has its place before it is visited
      obtain ⟨q, hq⟩ := (placed_foldl h hl m hv).exists_place
        (eq_root_or_of_visitOrder_eq hl.joined h.lt_size hv)
      rw [List.foldl_append, List.foldl_append, ih _ hv]
      exact (map_placeChildren hq).symm
  exact hfold _ [] (List.append_nil _).symm

theorem getElem?_depthsFrom (h : g.RootedAt root) (hl : g.Linked) (m : LayoutMeasures α)
    (hi : i < g.nodes.size) : (g.depthsFrom root)[i]? = some (g.placeAt m root i).depth := by
  rw [depthsFrom_eq h hl m, Array.getElem?_map, getElem?_placeFrom h hl m hi]
  rfl

/-- The depth of a tree is the greatest depth of a place. -/
theorem exists_depth_eq (h : g.RootedAt root) (hl : g.Linked) (m : LayoutMeasures α) :
    ∃ d, g.depth = some d ∧ (∃ i < g.nodes.size, (g.placeAt m root i).depth = d) ∧
      ∀ i < g.nodes.size, (g.placeAt m root i).depth ≤ d := by
  have hsize : (g.depthsFrom root).size = g.nodes.size := by
    rw [depthsFrom_eq h hl m, Array.size_map]
    exact (placed_placeFrom h hl m).size_eq
  have hmem : ∀ d, d ∈ (g.depthsFrom root).toList ↔
      ∃ i < g.nodes.size, (g.placeAt m root i).depth = d := by
    intro d
    rw [Array.mem_toList_iff, Array.mem_iff_getElem?]
    constructor
    · rintro ⟨i, hi⟩
      have hlt : i < g.nodes.size := hsize ▸ (Array.getElem?_eq_some_iff.1 hi).1
      rw [getElem?_depthsFrom h hl m hlt] at hi
      exact ⟨i, hlt, Option.some.inj hi⟩
    · rintro ⟨i, hlt, rfl⟩
      exact ⟨i, getElem?_depthsFrom h hl m hlt⟩
  have hne : (g.depthsFrom root).toList ≠ [] := by
    rw [← List.length_pos_iff, Array.length_toList, hsize]
    exact Nat.zero_lt_of_lt h.lt_size
  obtain ⟨d, hd⟩ := Option.ne_none_iff_exists'.1 (mt List.max?_eq_none_iff.1 hne)
  obtain ⟨hdmem, hdmax⟩ := List.max?_eq_some_iff.1 hd
  refine ⟨d, ?_, (hmem d).1 hdmem, fun i hi => hdmax _ ((hmem _).2 ⟨i, hi, rfl⟩)⟩
  unfold depth
  rw [treeRoot_of_rootedAt hl h]
  simp only [← Array.foldl_toList, List.foldl_max, hd, Option.getD_some]
  rw [max_eq_right (Nat.zero_le d)]

/-! ## The whole layout -/

/-- The layout of a tree holds every node once, with the place that a descent from the root without
marks gives it and with its depth below the root. -/
structure LaysOut (g : Graph) (m : LayoutMeasures α) (root : Nat) (l : Layout α) : Prop where
  names_eq : l.entries.map Prod.fst = g.ids
  placement_eq : ∀ e ∈ l.entries, l.placement e.1 = some e.2
  point_eq : ∀ e ∈ l.entries, l.point e.1 = some (e.2.x, e.2.y)
  /-- The layout visits every node once. -/
  visits_perm : (g.visitOrder root).Perm (List.range g.nodes.size)
  /-- So does a descent without marks, which finds the same places and depths. -/
  descent : ∃ place : Nat → Placement α,
    (∀ i id, g.idAt i = some id → (id, place i) ∈ l.entries) ∧
    Descent.Finishes g (fun p n k => p.child m n k) root (Placement.root m) place ∧
    Descent.Finishes g (fun d _ _ => d + 1) root 0 fun i => (place i).depth
  depth_iff : ∃ top, g.idAt root = some top ∧ g.parent top = none ∧
    ∀ e ∈ l.entries, ∀ n, g.LinksUp top e.1 n ↔ n = e.2.depth
  depth_child : ∀ e ∈ l.entries, ∀ e' ∈ l.entries, g.parent e'.1 = some e.1 →
    e'.2.depth = e.2.depth + 1
  depth_stats : ∃ d, g.stats.depth = some d ∧ (∃ e ∈ l.entries, e.2.depth = d) ∧
    ∀ e ∈ l.entries, e.2.depth ≤ d

/-- A traversal visits every node of a tree once. -/
theorem visitOrder_perm (h : g.RootedAt root) (hl : g.Linked) :
    (g.visitOrder root).Perm (List.range g.nodes.size) := by
  refine (List.perm_ext_iff_of_nodup (nodup_visitOrder hl.joined h.lt_size) List.nodup_range).2 ?_
  intro v
  rw [mem_visitOrder_iff hl.joined h.lt_size, List.mem_range]
  refine ⟨fun hv => ?_, h.reaches v⟩
  rcases Relation.ReflTransGen.cases_tail hv with rfl | ⟨u, -, he⟩
  · exact h.lt_size
  · exact (hl.inRange he).2

namespace Places

variable (hp : g.Places m root place) (h : g.RootedAt root) (hl : g.Linked)
  {e e' : String × Placement α}

include hp h hl

/-- The parent links from a node up to the root are as many as its depth. -/
theorem linksUp_iff (htop : g.ids[root]? = some top) (he : e ∈ (g.layoutOf place).entries) :
    g.LinksUp top e.1 n ↔ n = e.2.depth := by
  obtain ⟨i, hid, hplace⟩ := mem_entries_layoutOf.1 he
  have hup := hp.linksUp_of_reaches h hl htop (h.reaches i (lt_size_of_getElem?_ids hid)) hid
  rw [hplace]
  exact ⟨fun hn => hn.unique (h.parent_root hl htop) hup, fun hn => hn ▸ hup⟩

/-- A child is one level below its parent. -/
theorem depth_of_parent (he : e ∈ (g.layoutOf place).entries)
    (he' : e' ∈ (g.layoutOf place).entries) (hparent : g.parent e'.1 = some e.1) :
    e'.2.depth = e.2.depth + 1 := by
  obtain ⟨i, hid, hplace⟩ := mem_entries_layoutOf.1 he
  obtain ⟨j, hjd, hplace'⟩ := mem_entries_layoutOf.1 he'
  obtain ⟨u, v, huv, hu, hv⟩ := mem_edgeIds_iff.1 ((h.parent_eq_some_iff hl).1 hparent)
  rw [hplace, hplace', getElem?_ids_inj hid hu, getElem?_ids_inj hjd hv]
  exact hp.depth_of_hasEdge huv

end Places

/-- The depth of the statistics is the greatest of a layout. -/
theorem exists_depth_entries (h : g.RootedAt root) (hl : g.Linked) (m : LayoutMeasures α) :
    ∃ d, g.depth = some d ∧ (∃ e ∈ (g.layoutOf (g.placeAt m root)).entries, e.2.depth = d) ∧
      ∀ e ∈ (g.layoutOf (g.placeAt m root)).entries, e.2.depth ≤ d := by
  obtain ⟨d, hd, ⟨i, hi, hdi⟩, hmax⟩ := exists_depth_eq h hl m
  have hid := List.getElem?_eq_getElem (length_ids g ▸ hi)
  refine ⟨d, hd, ⟨_, mem_entries_layoutOf (e := (_, g.placeAt m root i)).2 ⟨i, hid, rfl⟩, hdi⟩,
    fun e he => ?_⟩
  obtain ⟨j, hjd, hplace⟩ := mem_entries_layoutOf.1 he
  rw [hplace]
  exact hmax j (lt_size_of_getElem?_ids hjd)

theorem laysOut_layoutOf (h : g.RootedAt root) (hl : g.Linked) (m : LayoutMeasures α) :
    g.LaysOut m root (g.layoutOf (g.placeAt m root)) := by
  have hp := places_placeAt h hl m
  obtain ⟨top, htop⟩ : ∃ top, g.ids[root]? = some top :=
    ⟨_, List.getElem?_eq_getElem (length_ids g ▸ h.lt_size)⟩
  refine ⟨map_fst_entries_layoutOf g _, fun e he => placement_of_mem he, fun e he => ?_,
    visitOrder_perm h hl, ⟨g.placeAt m root, fun i id hid => ?_, ?_, ?_⟩,
    ⟨top, (idAt_eq_getElem? g root).trans htop, h.parent_root hl htop,
      fun e he n => hp.linksUp_iff h hl htop he⟩,
    fun e he e' he' => hp.depth_of_parent h hl he he', exists_depth_entries h hl m⟩
  · unfold Layout.point
    rw [placement_of_mem he]
    rfl
  · exact mem_entries_layoutOf.2 ⟨i, (idAt_eq_getElem? g i).symm.trans hid, rfl⟩
  · exact Descent.finishes_of_tree h hl ⟨hp.root_eq, hp.child_eq⟩
  · refine Descent.finishes_of_tree h hl ⟨?_, fun hk => ?_⟩
    · rw [hp.root_eq, Placement.depth_root]
    · exact hp.depth_of_hasEdge (hasEdge_of_target hk)

/-- Laying out a tree that was read succeeds, and the layout holds every node once, with its depth
below the root, whatever the measures and the arithmetic. -/
theorem layout_complete_of_parse {text origin : String} (hg : Graph.parse text origin = .ok g)
    (hr : g.treeRoot = .ok root) (m : LayoutMeasures α) :
    ∃ l : Layout α, g.layout m none = .ok l ∧ g.LaysOut m root l := by
  have hl := (built_and_nodup_of_parse hg).1.linked
  have h := (treeRoot_eq_ok_iff hl).1 hr
  exact ⟨_, layout_none h hl m, laysOut_layoutOf h hl m⟩

/-- Three nodes in a row. -/
def chain : Graph := ofPairs [("a", "b"), ("b", "c")]

/-- An infinite width and a level gap that is no number do not matter. -/
theorem layout_complete_of_parse_chain : ∃ (m : LayoutMeasures Double) (l : Layout Double),
    m = ⟨Binary.infinity false, Binary.nan false⟩ ∧
      Graph.parse "a b\nb c" "chain" = .ok chain ∧ chain.treeRoot = .ok 0 ∧
      chain.layout m none = .ok l ∧ chain.LaysOut m 0 l := by
  have hrows : rows "a b\nb c" = [["a", "b"], ["b", "c"]] := by decide
  have hlists : ListsEdges (rows "a b\nb c") := by
    rw [hrows]
    exact ⟨by decide, by decide, by decide, by decide⟩
  have hg : Graph.parse "a b\nb c" "chain" = .ok chain := by
    rw [parse_of_listsEdges _ hlists, hrows]
    rfl
  have hl : chain.Linked := (built_ofPairs _).linked
  have hids : chain.ids = ["a", "b", "c"] := by
    unfold chain
    rw [ids_ofPairs]
    decide
  have hedges : chain.edges.toList = [(0, 1), (1, 2)] := by
    rw [hl.toList_edges_eq, hids, chain, edgeIds_ofPairs]
    decide
  have hsize : chain.nodes.size = 3 := by
    rw [← length_ids, hids]
    rfl
  have hr : chain.RootedAt 0 := by
    refine .of_increasing (by omega) ?_ ?_
    · rw [hedges]
      decide
    · unfold edgesInto
      rw [hedges, hsize]
      decide
  have hroot := treeRoot_of_rootedAt hl hr
  obtain ⟨l, hlayout, hlays⟩ := layout_complete_of_parse hg hroot
    (⟨Binary.infinity false, Binary.nan false⟩ : LayoutMeasures Double)
  exact ⟨_, l, rfl, hg, hroot, hlayout, hlays⟩

end TreeCorpus.Graph
