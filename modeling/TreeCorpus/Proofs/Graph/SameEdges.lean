import TreeCorpus.Proofs.Graph.NamedWalks

/-!
# Graphs with the same edges

Two graphs may number their nodes differently and list their edges in another order, and still have
the same edges between the same names. Such graphs have as many edges into each name, the same walks
between names and, if they are trees, the same parents. So one is a tree exactly when the other is,
at the same name (`SameEdges.rootedAt`), or both have a violation of one kind
(`SameEdges.exists_firstViolation`), and their leaves and depths are the same.
-/

namespace TreeCorpus

/-- Violations of one kind that name the same nodes, in any order. Which node with several parents
comes first may differ. -/
inductive TreeViolation.SameKind : TreeViolation → TreeViolation → Prop where
  | empty : SameKind .empty .empty
  | noRoot : SameKind .noRoot .noRoot
  | multipleRoots {ids ids' : List String} : ids.Perm ids' →
      SameKind (.multipleRoots ids) (.multipleRoots ids')
  | multipleParents (id id' : String) : SameKind (.multipleParents id) (.multipleParents id')
  | unreachable {ids ids' : List String} : ids.Perm ids' →
      SameKind (.unreachable ids) (.unreachable ids')

namespace Graph

open Number

variable {g g' : Graph} {i j i' j' r r' u u' v v' n : Nat} {id p c top a b : String}
  {P P' : Nat → Prop} {names names' : List String} {violation : TreeViolation}

/-- The same names and, in any order, the same edges between them. -/
structure SameEdges (g g' : Graph) : Prop where
  linked : g.Linked
  linked' : g'.Linked
  ids_perm : g.ids.Perm g'.ids
  edgeIds_perm : g.edgeIds.Perm g'.edgeIds

namespace SameEdges

variable (h : g.SameEdges g')

include h

theorem symm : g'.SameEdges g := ⟨h.linked', h.linked, h.ids_perm.symm, h.edgeIds_perm.symm⟩

theorem exists_position (hi : g.ids[i]? = some id) : ∃ j : Nat, g'.ids[j]? = some id :=
  List.mem_iff_getElem?.1 (h.ids_perm.mem_iff.1 (List.mem_of_getElem? hi))

theorem size_nodes_eq : g.nodes.size = g'.nodes.size := by
  rw [← length_ids, h.ids_perm.length_eq, length_ids]

theorem size_edges_eq : g.edges.size = g'.edges.size := by
  rw [← h.linked.length_edgeIds, h.edgeIds_perm.length_eq, h.linked'.length_edgeIds]

/-! ## Edges and walks -/

theorem edgesInto_eq (hi : g.ids[i]? = some id) (hj : g'.ids[j]? = some id) :
    g.edgesInto i = g'.edgesInto j := by
  rw [h.linked.edgesInto_of_name hi, h.linked'.edgesInto_of_name hj, h.edgeIds_perm.countP_eq]

theorem edgesInto_le_one (h1 : ∀ i, g.edgesInto i ≤ 1) (j : Nat) : g'.edgesInto j ≤ 1 := by
  rcases Nat.lt_or_ge j g'.nodes.size with hj | hj
  · obtain ⟨id, hid⟩ := exists_getElem?_ids hj
    obtain ⟨i, hi⟩ := h.symm.exists_position hid
    rw [← h.edgesInto_eq hi hid]
    exact h1 i
  · rw [h.linked'.edgesInto_of_le hj]
    exact Nat.zero_le 1

theorem leadsTo_iff : g.LeadsTo a b ↔ g'.LeadsTo a b := by
  have hedge : (fun p c => (p, c) ∈ g.edgeIds) = fun p c => (p, c) ∈ g'.edgeIds := by
    funext p c
    exact propext h.edgeIds_perm.mem_iff
  unfold LeadsTo
  rw [hedge]

theorem reaches_iff (hu : g.ids[u]? = some a) (hv : g.ids[v]? = some b)
    (hu' : g'.ids[u']? = some a) (hv' : g'.ids[v']? = some b) :
    g.Reaches u v ↔ g'.Reaches u' v' := by
  rw [← h.linked.leadsTo_iff hu hv, h.leadsTo_iff, h.linked'.leadsTo_iff hu' hv']

/-! ## Telling trees -/

theorem onlySource (hr : g.ids[r]? = some id) (hr' : g'.ids[r']? = some id)
    (hs : g.OnlySource r) : g'.OnlySource r' := by
  refine ⟨lt_size_of_getElem?_ids hr', ?_, fun j hj h0 => ?_⟩
  · rw [← h.edgesInto_eq hr hr']
    exact hs.edgesInto_root
  · obtain ⟨id', hid'⟩ := exists_getElem?_ids hj
    obtain ⟨i, hi⟩ := h.symm.exists_position hid'
    rw [← h.edgesInto_eq hi hid'] at h0
    rw [hs.eq_of_edgesInto i (lt_size_of_getElem?_ids hi) h0, hr] at hi
    exact getElem?_ids_inj hid' (hi ▸ hr')

theorem rootedAt (hr : g.ids[r]? = some id) (hr' : g'.ids[r']? = some id) (ht : g.RootedAt r) :
    g'.RootedAt r' := by
  refine (h.onlySource hr hr' ht.onlySource).rootedAt
    (h.edgesInto_le_one (ht.edgesInto_le_one h.linked)) fun j hj => ?_
  obtain ⟨id', hid'⟩ := exists_getElem?_ids hj
  obtain ⟨i, hi⟩ := h.symm.exists_position hid'
  exact (h.reaches_iff hr hi hr' hid').1 (ht.reaches i (lt_size_of_getElem?_ids hi))

/-- Names with the same property are the same names, each listed once. -/
theorem listsNames_perm (hn : g.ListsNames P names) (hn' : g'.ListsNames P' names')
    (hiff : ∀ {i j id}, g.ids[i]? = some id → g'.ids[j]? = some id → (P i ↔ P' j)) :
    names.Perm names' := by
  have hmem {id : String} (hid : id ∈ g.ids) : id ∈ names ↔ id ∈ names' := by
    obtain ⟨i, hi⟩ := List.mem_iff_getElem?.1 hid
    obtain ⟨j, hj⟩ := h.exists_position hi
    rw [hn.mem_iff hi, hn'.mem_iff hj]
    exact hiff hi hj
  refine (List.perm_ext_iff_of_nodup (g.nodup_ids.sublist hn.sublist)
    (g'.nodup_ids.sublist hn'.sublist)).2 fun id => ⟨fun hid => ?_, fun hid => ?_⟩
  · exact (hmem (hn.sublist.subset hid)).1 hid
  · exact (hmem (h.ids_perm.mem_iff.2 (hn'.sublist.subset hid))).2 hid

/-- The first violation of the one is of the same kind as that of the other. -/
theorem exists_firstViolation (hv : g.FirstViolation violation) :
    ∃ violation', g'.FirstViolation violation' ∧ violation.SameKind violation' := by
  cases hv with
  | empty h0 => exact ⟨_, .empty (h.size_nodes_eq ▸ h0), .empty⟩
  | noRoot hpos h0 =>
    refine ⟨_, .noRoot (h.size_nodes_eq ▸ hpos) fun j hj hj0 => ?_, .noRoot⟩
    obtain ⟨id, hid⟩ := exists_getElem?_ids hj
    obtain ⟨i, hi⟩ := h.symm.exists_position hid
    rw [← h.edgesInto_eq hi hid] at hj0
    exact h0 i (lt_size_of_getElem?_ids hi) hj0
  | @multipleRoots i j _ hij hj hi0 hj0 hn =>
    obtain ⟨a, ha⟩ := exists_getElem?_ids (hij.trans hj)
    obtain ⟨b, hb⟩ := exists_getElem?_ids hj
    obtain ⟨i', hi'⟩ := h.exists_position ha
    obtain ⟨j', hj'⟩ := h.exists_position hb
    rw [h.edgesInto_eq ha hi'] at hi0
    rw [h.edgesInto_eq hb hj'] at hj0
    have hne : i' ≠ j' := by
      rintro rfl
      exact hij.ne (getElem?_ids_inj ha (Option.some.inj (hi'.symm.trans hj') ▸ hb))
    have hn' := listsNames_sources h.linked'
    have hperm := h.listsNames_perm hn hn' fun hi hj => by rw [h.edgesInto_eq hi hj]
    rcases Nat.lt_or_gt_of_ne hne with hlt | hgt
    · exact ⟨_, .multipleRoots hlt (lt_size_of_getElem?_ids hj') hi0 hj0 hn',
        .multipleRoots hperm⟩
    · exact ⟨_, .multipleRoots hgt (lt_size_of_getElem?_ids hi') hj0 hi0 hn',
        .multipleRoots hperm⟩
  | @multipleParents r i id hs hid h2 _ =>
    obtain ⟨top, htop⟩ := exists_getElem?_ids hs.lt_size
    obtain ⟨r', hr'⟩ := h.exists_position htop
    rcases hfind : (g'.nodes.find? (1 < ·.inDegree)).map Node.id with _ | id'
    · -- the node with several parents in the one has as many in the other
      have h1 := (find?_inDegree_eq_none_iff h.linked').1 (Option.map_eq_none_iff.1 hfind)
      have hle := h.symm.edgesInto_le_one h1 i
      omega
    · obtain ⟨i', hi', h2', hfirst'⟩ := (find?_inDegree_eq_some_iff h.linked').1 hfind
      exact ⟨_, .multipleParents (h.onlySource htop hr' hs) hi' h2' hfirst',
        .multipleParents id id'⟩
  | @unreachable r i _ hs h1 hi hlost hn =>
    obtain ⟨top, htop⟩ := exists_getElem?_ids hs.lt_size
    obtain ⟨r', hr'⟩ := h.exists_position htop
    obtain ⟨id, hid⟩ := exists_getElem?_ids hi
    obtain ⟨i', hi'⟩ := h.exists_position hid
    have hn' := listsNames_unreachable h.linked'.joined (lt_size_of_getElem?_ids hr')
    refine ⟨_, .unreachable (h.onlySource htop hr' hs) (h.edgesInto_le_one h1)
      (lt_size_of_getElem?_ids hi') ?_ hn', .unreachable (h.listsNames_perm hn hn' ?_)⟩
    · rwa [← h.reaches_iff htop hid hr' hi']
    · intro j j' id hj hj'
      rw [h.reaches_iff htop hj hr' hj']

/-! ## Leaves and depths -/

theorem leaves_eq : g.stats.leaves = g'.stats.leaves := by
  rw [h.linked.leaves_eq_countP, h.linked'.leaves_eq_countP, h.ids_perm.countP_eq]
  apply List.countP_congr
  intro id _
  rw [List.isEmpty_iff, List.isEmpty_iff, ← List.length_eq_zero_iff, ← List.length_eq_zero_iff,
    (h.edgeIds_perm.filter _).length_eq]

/-- Trees with the same edges record the same parents. -/
theorem parent_eq (ht : g.RootedAt r) (ht' : g'.RootedAt r') : g.parent = g'.parent := by
  funext c
  apply Option.ext
  intro p
  rw [ht.parent_eq_some_iff h.linked, ht'.parent_eq_some_iff h.linked', h.edgeIds_perm.mem_iff]

theorem linksUp (ht : g.RootedAt r) (ht' : g'.RootedAt r') (hup : g.LinksUp top id n) :
    g'.LinksUp top id n := by
  induction hup with
  | here => exact .here
  | up hp _ ih => exact .up (h.parent_eq ht ht' ▸ hp) ih

variable {α : Type} [Arithmetic α]

/-- A name has the same depth in the layouts of both. -/
theorem exists_depth_eq_of_mem (hr : g.ids[r]? = some top) (hr' : g'.ids[r']? = some top)
    (ht : g.RootedAt r) (m : LayoutMeasures α) {e : String × Placement α}
    (he : e ∈ (g.layoutOf (g.placeAt m r)).entries) :
    ∃ e' ∈ (g'.layoutOf (g'.placeAt m r')).entries, e'.1 = e.1 ∧ e'.2.depth = e.2.depth := by
  have ht' := h.rootedAt hr hr' ht
  have hp := places_placeAt ht h.linked m
  have hp' := places_placeAt ht' h.linked' m
  obtain ⟨i, hid, -⟩ := mem_entries_layoutOf.1 he
  obtain ⟨j, hj⟩ := h.exists_position hid
  have he' : (e.1, g'.placeAt m r' j) ∈ (g'.layoutOf (g'.placeAt m r')).entries :=
    mem_entries_layoutOf.2 ⟨j, hj, rfl⟩
  refine ⟨_, he', rfl, ?_⟩
  have hup := (hp.linksUp_iff ht h.linked hr he).2 rfl
  exact ((hp'.linksUp_iff ht' h.linked' hr' he').1 (h.linksUp ht ht' hup)).symm

/-- The statistics of the other find nodes at least as deep. -/
theorem exists_depth_le (hr : g.ids[r]? = some top) (hr' : g'.ids[r']? = some top)
    (ht : g.RootedAt r) : ∃ d d', g.depth = some d ∧ g'.depth = some d' ∧ d ≤ d' := by
  -- any arithmetic will do
  let m : LayoutMeasures Double := ⟨Binary.zero false, Binary.zero false⟩
  obtain ⟨d, hd, ⟨e, he, hed⟩, -⟩ := exists_depth_entries ht h.linked m
  obtain ⟨d', hd', -, hmax⟩ := exists_depth_entries (h.rootedAt hr hr' ht) h.linked' m
  obtain ⟨e', he', -, hdepth⟩ := h.exists_depth_eq_of_mem hr hr' ht m he
  refine ⟨d, d', hd, hd', ?_⟩
  rw [← hed, ← hdepth]
  exact hmax e' he'

theorem depth_eq (hr : g.ids[r]? = some top) (hr' : g'.ids[r']? = some top)
    (ht : g.RootedAt r) : g.depth = g'.depth := by
  obtain ⟨d, d', hd, hd', hle⟩ := h.exists_depth_le hr hr' ht
  obtain ⟨c', c, hc', hc, hge⟩ := h.symm.exists_depth_le hr' hr (h.rootedAt hr hr' ht)
  obtain rfl : d = c := Option.some.inj (hd.symm.trans hc)
  obtain rfl : d' = c' := Option.some.inj (hd'.symm.trans hc')
  rw [hd, hd', Nat.le_antisymm hle hge]

end SameEdges

end Graph

end TreeCorpus
