import TreeCorpus.Proofs.Graph.Depth

/-!
# Walks by name

What holds of positions along edges holds of the names there: as many edges enter a name as its
position, the leaves are the names that no edge leaves (`Linked.leaves_eq_countP`), and names lead
to one another exactly when walks join their positions (`Linked.leadsTo_iff`). Parent links lead up
such walks (`Linked.leadsTo_of_linksUp`).
-/

namespace TreeCorpus.Graph

variable {g : Graph} {i u v n : Nat} {id p q c a b : String}

/-- A walk along edges leads from one name to the other. -/
def LeadsTo (g : Graph) : String → String → Prop :=
  Relation.ReflTransGen fun p c => (p, c) ∈ g.edgeIds

theorem idxOf_of_getElem? (hi : g.ids[i]? = some id) : g.ids.idxOf id = i :=
  getElem?_ids_inj (List.getElem?_idxOf (List.mem_of_getElem? hi)) hi

theorem exists_getElem?_ids (hi : i < g.nodes.size) : ∃ id, g.ids[i]? = some id :=
  ⟨_, List.getElem?_eq_getElem (length_ids g ▸ hi)⟩

/-- Two edges into a name that one edge enters have one source. -/
theorem eq_of_mem_edgeIds (h1 : ∀ i, g.edgesInto i ≤ 1)
    (hp : (p, c) ∈ g.edgeIds) (hq : (q, c) ∈ g.edgeIds) : p = q := by
  obtain ⟨u, v, he, hu, hv⟩ := mem_edgeIds_iff.1 hp
  obtain ⟨u', v', he', hu', hv'⟩ := mem_edgeIds_iff.1 hq
  obtain rfl : v' = v := getElem?_ids_inj hv' hv
  obtain rfl : u' = u := eq_of_edgesInto_le_one (h1 v') he' he
  exact Option.some.inj (hu.symm.trans hu')

namespace Linked

theorem edgesInto_of_name (hl : g.Linked) (hi : g.ids[i]? = some id) :
    g.edgesInto i = g.edgeIds.countP (·.2 == id) := by
  rw [← hl.edgesInto_idxOf, idxOf_of_getElem? hi]

/-- The leaves are the names that no edge leaves. -/
theorem leaves_eq_countP (hl : g.Linked) :
    g.stats.leaves = g.ids.countP fun id => (g.edgeIds.filter (·.1 == id)).isEmpty := by
  show g.nodes.countP (fun n => n.children.isEmpty) = _
  rw [← Array.countP_toList, ids, List.countP_map]
  apply List.countP_congr
  intro n hn
  obtain ⟨i, hi⟩ := List.mem_iff_getElem?.1 hn
  rw [Array.getElem?_toList] at hi
  have hid : g.ids[i]? = some n.id := by
    rw [← idAt_eq_getElem?, idAt, hi]
    rfl
  have htargets := hl.targets_idxOf n.id
  rw [idxOf_of_getElem? hid, ← hl.children_eq hi] at htargets
  rw [Function.comp_apply, ← Array.isEmpty_toList, htargets, List.isEmpty_map]

/-- Names lead to one another as their positions do. -/
theorem leadsTo_iff (hl : g.Linked) (hu : g.ids[u]? = some a) (hv : g.ids[v]? = some b) :
    g.LeadsTo a b ↔ g.Reaches u v := by
  constructor
  · intro h
    induction h generalizing v with
    | refl =>
      rw [getElem?_ids_inj hu hv]
      exact .refl
    | tail _ he ih =>
      obtain ⟨w, v', hwv, hw, hv'⟩ := mem_edgeIds_iff.1 he
      obtain rfl : v' = v := getElem?_ids_inj hv' hv
      exact (ih hw).tail hwv
  · intro h
    induction h generalizing b with
    | refl =>
      rw [Option.some.inj (hu.symm.trans hv)]
      exact .refl
    | tail _ he ih =>
      obtain ⟨id, hid⟩ := exists_getElem?_ids (hl.inRange he).1
      exact (ih hid).tail (mem_edgeIds_iff.2 ⟨_, _, he, hid, hv⟩)

/-- Parent links up to a name are a walk down from it. -/
theorem leadsTo_of_linksUp (hl : g.Linked) (h : g.LinksUp a id n) : g.LeadsTo a id := by
  induction h with
  | here => exact .refl
  | up hp _ ih => exact ih.tail (hl.mem_edgeIds_of_parent hp)

end Linked

end TreeCorpus.Graph
