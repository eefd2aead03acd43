import TreeCorpus.Proofs.Graph.SameEdges

/-!
# The order of lines

Permuting the lines of an edge list numbers its nodes anew and puts the children of a node in
another order, but the edges between the names stay the same. So the text is still an edge list or
still none, and what is told of its graph does not change: whether it is a tree and at which name,
which kind of violation it has, its figures and the depths of its layout (`parse_of_permuted`).
-/

namespace TreeCorpus.Graph

open Number

variable {g g' : Graph} {rs rs' : List (List String)} {ps ps' : List (String × String)}

/-! ## Permuted rows -/

theorem pairs_perm (h : rs.Perm rs') : (pairs rs).Perm (pairs rs') := h.filterMap pair?

theorem ListsEdges.perm (h : rs.Perm rs') (hl : ListsEdges rs) : ListsEdges rs' := by
  obtain ⟨ws, hws, hlength⟩ := hl.exists_pair
  refine ⟨fun ws hws => hl.blank_or_pair ws (h.mem_iff.2 hws),
    fun e he => hl.ne_of_mem e ((pairs_perm h).mem_iff.2 he), (pairs_perm h).nodup_iff.1 hl.nodup,
    ws, h.mem_iff.1 hws, hlength⟩

theorem sameEdges_ofPairs (h : ps.Perm ps') : (ofPairs ps).SameEdges (ofPairs ps') := by
  refine ⟨(built_ofPairs ps).linked, (built_ofPairs ps').linked, ?_, ?_⟩
  · refine (List.perm_ext_iff_of_nodup (nodup_ids _) (nodup_ids _)).2 fun id => ?_
    rw [ids_ofPairs, ids_ofPairs, List.mem_eraseDups, List.mem_eraseDups,
      (h.flatMap_right _).mem_iff]
  · rwa [edgeIds_ofPairs, edgeIds_ofPairs]

/-! ## What does not change -/

/-- The two graphs are trees at the same name or have a violation of the same kind, their figures
agree, and so do the depths of their layouts. -/
structure SameShape (g g' : Graph) : Prop where
  ids_perm : g.ids.Perm g'.ids
  edgeIds_perm : g.edgeIds.Perm g'.edgeIds
  root : ∀ r, g.treeRoot = .ok r →
    ∃ r' top, g'.treeRoot = .ok r' ∧ g.idAt r = some top ∧ g'.idAt r' = some top
  violation : ∀ v, g.treeRoot = .error v → ∃ v', g'.treeRoot = .error v' ∧ v.SameKind v'
  nodes_eq : g.stats.nodes = g'.stats.nodes
  edges_eq : g.stats.edges = g'.stats.edges
  leaves_eq : g.stats.leaves = g'.stats.leaves
  depth_eq : g.stats.depth = g'.stats.depth
  layout_depth : ∀ r, g.treeRoot = .ok r → ∀ {α : Type} [Arithmetic α] (m : LayoutMeasures α),
    ∃ l l', g.layout m none = .ok l ∧ g'.layout m none = .ok l' ∧ ∀ id ∈ g.ids,
      ∃ p p', l.placement id = some p ∧ l'.placement id = some p' ∧ p.depth = p'.depth

namespace SameEdges

variable (h : g.SameEdges g')

include h

/-- The root of the one has its name in the other, which is a tree there. -/
theorem exists_root {r : Nat} (hr : g.treeRoot = .ok r) :
    ∃ r' top, g.RootedAt r ∧ g'.RootedAt r' ∧ g.ids[r]? = some top ∧ g'.ids[r']? = some top := by
  have ht := (treeRoot_eq_ok_iff h.linked).1 hr
  obtain ⟨top, htop⟩ := exists_getElem?_ids ht.lt_size
  obtain ⟨r', htop'⟩ := h.exists_position htop
  exact ⟨r', top, ht, h.rootedAt htop htop' ht, htop, htop'⟩

theorem exists_violation {v : TreeViolation} (hv : g.treeRoot = .error v) :
    ∃ v', g'.treeRoot = .error v' ∧ v.SameKind v' := by
  obtain ⟨v', hv', hkind⟩ := h.exists_firstViolation ((treeRoot_eq_error_iff h.linked).1 hv)
  exact ⟨v', (treeRoot_eq_error_iff h.linked').2 hv', hkind⟩

theorem stats_depth_eq : g.stats.depth = g'.stats.depth := by
  show g.depth = g'.depth
  cases hr : g.treeRoot with
  | ok r =>
    obtain ⟨r', top, ht, -, htop, htop'⟩ := h.exists_root hr
    exact h.depth_eq htop htop' ht
  | error v =>
    obtain ⟨v', hv', -⟩ := h.exists_violation hr
    unfold depth
    rw [hr, hv']

theorem sameShape : g.SameShape g' := by
  refine ⟨h.ids_perm, h.edgeIds_perm, fun r hr => ?_, fun v hv => h.exists_violation hv,
    h.size_nodes_eq, h.size_edges_eq, h.leaves_eq, h.stats_depth_eq, fun r hr {α} _ m => ?_⟩
  · obtain ⟨r', top, -, ht', htop, htop'⟩ := h.exists_root hr
    exact ⟨r', top, treeRoot_of_rootedAt h.linked' ht', (idAt_eq_getElem? g r).trans htop,
      (idAt_eq_getElem? g' r').trans htop'⟩
  · obtain ⟨r', top, ht, ht', htop, htop'⟩ := h.exists_root hr
    refine ⟨_, _, layout_none ht h.linked m, layout_none ht' h.linked' m, fun id hid => ?_⟩
    obtain ⟨i, hi⟩ := List.mem_iff_getElem?.1 hid
    have he : (id, g.placeAt m r i) ∈ (g.layoutOf (g.placeAt m r)).entries :=
      mem_entries_layoutOf.2 ⟨i, hi, rfl⟩
    obtain ⟨e', he', rfl, hdepth⟩ := h.exists_depth_eq_of_mem htop htop' ht m he
    exact ⟨g.placeAt m r i, e'.2, placement_of_mem he, placement_of_mem he', hdepth.symm⟩

end SameEdges

/-! ## Permuted lines -/

theorem rows_perm {text text' : String} (h : (Text.lines text).Perm (Text.lines text')) :
    (rows text).Perm (rows text') := h.map Text.words

/-- Reading the lines of a text in another order succeeds as before, and the two graphs have the
same shape. -/
theorem parse_of_permuted {text text' : String} (h : (Text.lines text).Perm (Text.lines text'))
    (origin origin' : String) :
    ((∃ g, Graph.parse text origin = .ok g) ↔ ∃ g', Graph.parse text' origin' = .ok g') ∧
      ∀ g g', Graph.parse text origin = .ok g → Graph.parse text' origin' = .ok g' →
        g.SameShape g' := by
  have hrows := rows_perm h
  refine ⟨⟨?_, ?_⟩, fun g g' hg hg' => ?_⟩
  · rintro ⟨g, hg⟩
    exact ⟨_, parse_of_listsEdges origin' ((parse_eq_ok_iff.1 hg).1.perm hrows)⟩
  · rintro ⟨g', hg'⟩
    exact ⟨_, parse_of_listsEdges origin ((parse_eq_ok_iff.1 hg').1.perm hrows.symm)⟩
  · obtain ⟨-, rfl⟩ := parse_eq_ok_iff.1 hg
    obtain ⟨-, rfl⟩ := parse_eq_ok_iff.1 hg'
    exact (sameEdges_ofPairs (pairs_perm hrows)).sameShape

/-- The same lines read from the last to the first, which turns the numbering of the nodes round. -/
theorem parse_of_permuted_reversed :
    (Text.lines "a b\nb c\n\na d\n").Perm (Text.lines "a d\n\nb c\na b") ∧
      ∃ g g', Graph.parse "a b\nb c\n\na d\n" "down" = .ok g ∧
        Graph.parse "a d\n\nb c\na b" "up" = .ok g' ∧ g.ids = ["a", "b", "c", "d"] ∧
        g'.ids = ["a", "d", "b", "c"] ∧ g.SameShape g' := by
  have hlines : Text.lines "a b\nb c\n\na d\n" = ["a b", "b c", "", "a d"] := by decide
  have hlines' : Text.lines "a d\n\nb c\na b" = ["a d", "", "b c", "a b"] := by decide
  have hperm : (Text.lines "a b\nb c\n\na d\n").Perm (Text.lines "a d\n\nb c\na b") := by
    rw [hlines, hlines']
    exact List.reverse_perm ["a d", "", "b c", "a b"]
  have hrows : rows "a b\nb c\n\na d\n" = [["a", "b"], ["b", "c"], [], ["a", "d"]] := by decide
  have hlists : ListsEdges (rows "a b\nb c\n\na d\n") := by
    rw [hrows]
    exact ⟨by decide, by decide, by decide, by decide⟩
  have hg := parse_of_listsEdges "down" hlists
  obtain ⟨hiff, hshape⟩ := parse_of_permuted hperm "down" "up"
  obtain ⟨g', hg'⟩ := hiff.1 ⟨_, hg⟩
  refine ⟨hperm, _, g', hg, hg', ?_, ?_, hshape _ _ hg hg'⟩
  · rw [ids_ofPairs, hrows]
    decide
  · have hrows' : rows "a d\n\nb c\na b" = [["a", "d"], [], ["b", "c"], ["a", "b"]] := by decide
    obtain ⟨-, rfl⟩ := parse_eq_ok_iff.1 hg'
    rw [ids_ofPairs, hrows']
    decide

end TreeCorpus.Graph
