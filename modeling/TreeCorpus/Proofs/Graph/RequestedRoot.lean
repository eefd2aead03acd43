import TreeCorpus.Proofs.Graph.Measures
import TreeCorpus.Proofs.Graph.NamedWalks

/-!
# Asking for a root

A requested root must be the root that the tree has. A name that belongs to another node is refused
for having a parent, although only its position was compared: in a tree every node but the root has
exactly one (`RootedAt.answersRequest`). Where there is no tree the violation is reported whatever
was requested, so a layout from a requested root is the layout without a request or none
(`resolveRoot_exact`).
-/

namespace TreeCorpus.Graph

open Number

variable {g : Graph} {i r : Nat} {id : String}

/-! ## The outcomes on a tree -/

theorem resolveRoot_of_error {v : TreeViolation} (h : g.treeRoot = .error v)
    (requested : Option String) : g.resolveRoot requested = .error v := by
  unfold resolveRoot
  rw [h]

theorem resolveRoot_of_not_mem (hr : g.treeRoot = .ok r) (hid : id ∉ g.ids) :
    g.resolveRoot (some id) = .error (.unknownRoot id) := by
  unfold resolveRoot
  rw [hr]
  simp only [position_eq_none_iff.2 hid]

theorem resolveRoot_of_getElem? (hr : g.treeRoot = .ok r) (hi : g.ids[i]? = some id) :
    g.resolveRoot (some id) = if i = r then .ok i else .error (.rootHasParent id) := by
  unfold resolveRoot
  rw [hr]
  simp only [position_eq_some_iff_getElem?.2 hi]

/-- A node of a tree that is not the root has one edge into it and records its source. -/
theorem RootedAt.exists_parent (h : g.RootedAt r) (hl : g.Linked) (hi : g.ids[i]? = some id)
    (hne : i ≠ r) : g.inDegree id = some 1 ∧ ∃ p, g.parent id = some p ∧ (p, id) ∈ g.edgeIds := by
  have hone : g.edgesInto i = 1 := h.edgesInto_other i (lt_size_of_getElem?_ids hi) hne
  have hdegree : g.inDegree id = some 1 := by
    rw [hl.inDegree_eq_edgeIds (List.mem_of_getElem? hi), ← hl.edgesInto_of_name hi, hone]
  refine ⟨hdegree, ?_⟩
  cases hp : g.parent id with
  | none =>
    rw [hl.parent_eq_none_iff (List.mem_of_getElem? hi), hdegree] at hp
    exact absurd hp (by simp)
  | some p => exact ⟨p, rfl, hl.mem_edgeIds_of_parent hp⟩

/-- What a request for the name `id` gives in a tree at `r`. -/
structure AnswersRequest (g : Graph) (r : Nat) (id : String) : Prop where
  ok_iff : ∀ i, g.resolveRoot (some id) = .ok i ↔ i = r ∧ g.idAt r = some id
  unknownRoot_iff : g.resolveRoot (some id) = .error (.unknownRoot id) ↔ id ∉ g.ids
  rootHasParent_iff : g.resolveRoot (some id) = .error (.rootHasParent id) ↔
    id ∈ g.ids ∧ g.idAt r ≠ some id
  /-- Who is refused for having a parent has one. -/
  exists_parent : g.resolveRoot (some id) = .error (.rootHasParent id) →
    g.inDegree id = some 1 ∧ ∃ p, g.parent id = some p ∧ (p, id) ∈ g.edgeIds

theorem RootedAt.answersRequest (h : g.RootedAt r) (hl : g.Linked) (id : String) :
    g.AnswersRequest r id := by
  have hr := treeRoot_of_rootedAt hl h
  by_cases hid : id ∈ g.ids
  · obtain ⟨i, hi⟩ := List.mem_iff_getElem?.1 hid
    have hgiven := resolveRoot_of_getElem? hr hi
    by_cases hir : i = r
    · subst hir
      rw [if_pos rfl] at hgiven
      have hat : g.idAt i = some id := (idAt_eq_getElem? g i).trans hi
      constructor <;> simp [hgiven, hat, hid, eq_comm]
    · rw [if_neg hir] at hgiven
      have hat : g.idAt r ≠ some id := fun hr => hir (getElem?_ids_inj hi (idAt_eq_getElem? g r ▸ hr))
      have hparent := h.exists_parent hl hi hir
      constructor <;> simp [hgiven, hat, hid, hparent]
  · have hgiven := resolveRoot_of_not_mem hr hid
    have hat : g.idAt r ≠ some id := fun h => hid (List.mem_of_getElem? (idAt_eq_getElem? g r ▸ h))
    constructor <;> simp [hgiven, hat, hid]

/-! ## Graphs that were read -/

/-- Over a graph that was read, a request gives the violation of the graph if there is no tree, and
in a tree the root exactly for the root's own name. So a layout from a requested root exists exactly
for that name, and is the one without a request. -/
theorem resolveRoot_exact {text origin : String} (hg : Graph.parse text origin = .ok g)
    (id : String) :
    ((¬ ∃ r, g.IsTreeAt r) →
      ∃ v, g.treeRoot = .error v ∧ g.resolveRoot (some id) = .error v) ∧
    (∀ r, g.IsTreeAt r → g.treeRoot = .ok r ∧ g.AnswersRequest r id) ∧
    ∀ {α : Type} [Arithmetic α] (m : LayoutMeasures α),
      ((∃ l, g.layout m (some id) = .ok l) ↔ ∃ r, g.IsTreeAt r ∧ g.idAt r = some id) ∧
      ∀ l, g.layout m (some id) = .ok l → g.layout m none = .ok l := by
  obtain ⟨hb, hn⟩ := built_and_nodup_of_parse hg
  have hl := hb.linked
  have htree (r : Nat) : g.treeRoot = .ok r ↔ g.IsTreeAt r :=
    (treeRoot_eq_ok_iff hl).trans (isTreeAt_iff_rootedAt hl hn).symm
  have hanswers (r : Nat) (h : g.IsTreeAt r) : g.AnswersRequest r id :=
    (h.rootedAt hl hn).answersRequest hl id
  refine ⟨fun hnone => ?_, fun r h => ⟨(htree r).2 h, hanswers r h⟩,
    fun m => ⟨?_, fun l hlayout => ?_⟩⟩
  · cases hroot : g.treeRoot with
    | error v => exact ⟨v, rfl, resolveRoot_of_error hroot _⟩
    | ok r => exact absurd ⟨r, (htree r).1 hroot⟩ hnone
  · constructor
    · rintro ⟨l, hlayout⟩
      obtain ⟨r, hresolve, -⟩ := (layout_eq_ok_iff hl).1 hlayout
      have h := (htree r).1 (treeRoot_of_resolveRoot hresolve)
      exact ⟨r, h, (((hanswers r h).ok_iff r).1 hresolve).2⟩
    · rintro ⟨r, h, hat⟩
      have hresolve := ((hanswers r h).ok_iff r).2 ⟨rfl, hat⟩
      exact ⟨_, (layout_eq_ok_iff hl).2 ⟨r, hresolve, rfl⟩⟩
  · obtain ⟨r, hresolve, rfl⟩ := (layout_eq_ok_iff hl).1 hlayout
    exact layout_none ((treeRoot_eq_ok_iff hl).1 (treeRoot_of_resolveRoot hresolve)) hl m

/-- The root, a node below it and a name without a node, asked for in a row of three nodes. -/
theorem resolveRoot_exact_chain : Graph.parse "a b\nb c" "chain" = .ok chain ∧
    chain.resolveRoot (some "a") = .ok 0 ∧
    chain.resolveRoot (some "b") = .error (.rootHasParent "b") ∧ chain.inDegree "b" = some 1 ∧
    chain.resolveRoot (some "z") = .error (.unknownRoot "z") ∧
    ∀ m : LayoutMeasures Double, ∃ l,
      chain.layout m (some "a") = .ok l ∧ chain.layout m none = .ok l := by
  have hrows : rows "a b\nb c" = [["a", "b"], ["b", "c"]] := by decide
  have hlists : ListsEdges (rows "a b\nb c") := by
    rw [hrows]
    exact ⟨by decide, by decide, by decide, by decide⟩
  have hg : Graph.parse "a b\nb c" "chain" = .ok chain := by
    rw [parse_of_listsEdges _ hlists, hrows]
    rfl
  have hids : chain.ids = ["a", "b", "c"] := by
    unfold chain
    rw [ids_ofPairs]
    decide
  have hat : chain.idAt 0 = some "a" := by
    rw [idAt_eq_getElem?, hids]
    rfl
  have htree : chain.IsTreeAt 0 := by
    have hr : chain.RootedAt 0 := rootedAt_ofPairs (show _ = ["a", "b", "c"] by decide)
      (by decide) (by decide) (by decide)
    exact hr.isTreeAt (built_ofPairs _).linked
  have hanswers (id : String) : chain.AnswersRequest 0 id :=
    ((resolveRoot_exact hg id).2.1 0 htree).2
  have hb : chain.resolveRoot (some "b") = .error (.rootHasParent "b") :=
    (hanswers "b").rootHasParent_iff.2 ⟨by rw [hids]; decide, by rw [hat]; decide⟩
  refine ⟨hg, ((hanswers "a").ok_iff 0).2 ⟨rfl, hat⟩, hb, ((hanswers "b").exists_parent hb).1,
    (hanswers "z").unknownRoot_iff.2 (by rw [hids]; decide), fun m => ?_⟩
  obtain ⟨hexists, hsame⟩ := (resolveRoot_exact hg "a").2.2 m
  obtain ⟨l, hl⟩ := hexists.2 ⟨0, htree, hat⟩
  exact ⟨l, hl, hsame l hl⟩

end TreeCorpus.Graph
