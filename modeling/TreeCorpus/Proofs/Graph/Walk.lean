import Mathlib.Algebra.BigOperators.Group.Finset.Piecewise
import Mathlib.Logic.Relation
import TreeCorpus.Proofs.Graph.Linked

/-!
# Walks and rooted trees

A position is reached from another when a walk along edges joins them. A graph is a tree at a
position when every node ends exactly one walk from there. For distinct edges this is the local
condition that no edge enters the root, one enters every other node, and all nodes are reached
(`isTreeAt_iff_rootedAt`); a tree has one edge fewer than nodes (`RootedAt.size_edges`).
-/

namespace TreeCorpus.Graph

variable {g : Graph} {r u v w : Nat} {ps qs : List Nat}

/-! ## Edges into a position -/

/-- Two edges into a position that one edge enters have one source. -/
theorem eq_of_edgesInto_le_one (h : g.edgesInto v ≤ 1) (hu : g.HasEdge u v) (hw : g.HasEdge w v) :
    u = w := by
  unfold edgesInto at h
  rw [List.countP_eq_length_filter] at h
  have hmem {x : Nat} (hx : g.HasEdge x v) : (x, v) ∈ g.edges.toList.filter (·.2 == v) :=
    List.mem_filter.2 ⟨hx, beq_self_eq_true v⟩
  have hu' := hmem hu
  have hw' := hmem hw
  rcases hl : g.edges.toList.filter (·.2 == v) with _ | ⟨e, _ | ⟨e', l⟩⟩
  · rw [hl] at hu'
    exact absurd hu' List.not_mem_nil
  · rw [hl, List.mem_singleton] at hu' hw'
    exact (Prod.mk.inj (hu'.trans hw'.symm)).1
  · rw [hl, List.length_cons, List.length_cons] at h
    omega

/-- Distinct edges into a position from one source are one edge. -/
theorem edgesInto_le_one (hn : g.edges.toList.Nodup)
    (h : ∀ u w, g.HasEdge u v → g.HasEdge w v → u = w) : g.edgesInto v ≤ 1 := by
  rcases Nat.eq_zero_or_pos (g.edgesInto v) with h0 | hpos
  · omega
  · obtain ⟨u, hu⟩ := edgesInto_pos_iff.1 hpos
    have hsub : g.edges.toList.filter (·.2 == v) ⊆ [(u, v)] := by
      rintro ⟨w, x⟩ he
      obtain ⟨hm, hx⟩ := List.mem_filter.1 he
      obtain rfl : x = v := eq_of_beq hx
      rw [h w u hm hu]
      exact List.mem_singleton_self _
    unfold edgesInto
    rw [List.countP_eq_length_filter]
    exact ((hn.filter _).subperm hsub).length_le

/-! ## Sums over positions -/

theorem sum_countP_eq_length {α : Type} (f : α → Nat) {n : Nat} {l : List α}
    (h : ∀ a ∈ l, f a < n) : ∑ i ∈ Finset.range n, l.countP (f · == i) = l.length := by
  induction l with
  | nil => simp
  | cons a l ih =>
    have ih' := ih fun b hb => h b (List.mem_cons_of_mem a hb)
    have ha := h a List.mem_cons_self
    simp only [List.countP_cons, Finset.sum_add_distrib, ih', beq_iff_eq, Finset.sum_ite_eq,
      Finset.mem_range, if_pos ha, List.length_cons]

/-- Every edge enters one position. -/
theorem Linked.sum_edgesInto (h : g.Linked) :
    ∑ i ∈ Finset.range g.nodes.size, g.edgesInto i = g.edges.size :=
  sum_countP_eq_length Prod.snd fun _ he => (h.inRange he).2

/-- Every edge leaves one position. -/
theorem Joined.sum_length_targets (h : g.Joined) :
    ∑ i ∈ Finset.range g.nodes.size, (g.targets i).length = g.edges.size := by
  refine Eq.trans (Finset.sum_congr rfl fun i _ => ?_)
    (sum_countP_eq_length Prod.fst fun _ he => (h.inRange he).1)
  unfold targets
  rw [List.length_map, List.countP_eq_length_filter]

/-! ## Walks -/

/-- The positions of a walk along edges from `r`, the last one first. -/
inductive Walk (g : Graph) (r : Nat) : List Nat → Prop where
  | start : Walk g r [r]
  | step {u v : Nat} {ps : List Nat} : Walk g r (u :: ps) → g.HasEdge u v → Walk g r (v :: u :: ps)

/-- A walk leads from one position to the other. -/
def Reaches (g : Graph) : Nat → Nat → Prop := Relation.ReflTransGen g.HasEdge

theorem reaches_iff_exists_walk : g.Reaches r v ↔ ∃ ps, g.Walk r (v :: ps) := by
  constructor
  · intro h
    induction h with
    | refl => exact ⟨[], .start⟩
    | tail _ he ih =>
      obtain ⟨ps, hps⟩ := ih
      exact ⟨_, hps.step he⟩
  · rintro ⟨ps, h⟩
    induction ps generalizing v with
    | nil =>
      cases h
      exact .refl
    | cons u ps ih =>
      cases h with
      | step h he => exact .tail (ih h) he

/-- Where no edge enters the start and at most one any other position, walks are unique. -/
theorem Walk.unique (h0 : g.edgesInto r = 0) (h1 : ∀ v, g.edgesInto v ≤ 1)
    (hp : g.Walk r (v :: ps)) (hq : g.Walk r (v :: qs)) : ps = qs := by
  have hstart := edgesInto_eq_zero_iff.1 h0
  induction ps generalizing v qs with
  | nil =>
    cases hp
    cases hq with
    | start => rfl
    | step _ he => exact absurd he (hstart _)
  | cons u ps ih =>
    cases hp with
    | step hp he =>
      cases hq with
      | start => exact absurd he (hstart _)
      | step hq hw =>
        obtain rfl := eq_of_edgesInto_le_one (h1 v) he hw
        rw [ih hp hq]

/-! ## Rooted trees -/

/-- Every node ends exactly one walk from `r`. -/
def IsTreeAt (g : Graph) (r : Nat) : Prop :=
  r < g.nodes.size ∧ ∀ v < g.nodes.size, ∃! ps, g.Walk r (v :: ps)

/-- No edge enters the root, one enters every other node, and all nodes are reached. -/
structure RootedAt (g : Graph) (r : Nat) : Prop where
  lt_size : r < g.nodes.size
  edgesInto_root : g.edgesInto r = 0
  edgesInto_other : ∀ v < g.nodes.size, v ≠ r → g.edgesInto v = 1
  reaches : ∀ v < g.nodes.size, g.Reaches r v

namespace RootedAt

/-- Only the edges and the number of nodes tell a tree. -/
theorem congr {g' : Graph} (h : g.RootedAt r) (hedges : g'.edges = g.edges)
    (hsize : g'.nodes.size = g.nodes.size) : g'.RootedAt r := by
  have hinto (v : Nat) : g'.edgesInto v = g.edgesInto v := by
    unfold edgesInto
    rw [hedges]
  have hedge : g'.HasEdge = g.HasEdge := by
    unfold HasEdge
    rw [hedges]
  refine ⟨hsize ▸ h.lt_size, (hinto r).trans h.edgesInto_root, fun v hv hne => ?_,
    fun v hv => ?_⟩
  · rw [hinto]
    exact h.edgesInto_other v (hsize ▸ hv) hne
  · unfold Reaches
    rw [hedge]
    exact h.reaches v (hsize ▸ hv)

/-- Edges that lead to later nodes, one into each node but the first, make a tree. -/
theorem of_increasing (hpos : 0 < g.nodes.size) (hlater : ∀ e ∈ g.edges.toList, e.1 < e.2)
    (hother : ∀ v < g.nodes.size, v ≠ 0 → g.edgesInto v = 1) : g.RootedAt 0 := by
  refine ⟨hpos, edgesInto_eq_zero_iff.2 fun u hu => absurd (hlater _ hu) (Nat.not_lt_zero u),
    hother, fun v hv => ?_⟩
  induction v using Nat.strongRecOn with
  | ind v ih =>
    by_cases hzero : v = 0
    · rw [hzero]
      exact .refl
    · have hone := hother v hv hzero
      obtain ⟨u, hu⟩ := edgesInto_pos_iff.1 (hone ▸ Nat.one_pos)
      have hlt : u < v := hlater _ hu
      exact (ih u hlt (hlt.trans hv)).tail hu

theorem edgesInto_le_one (h : g.RootedAt r) (hl : g.Linked) (v : Nat) : g.edgesInto v ≤ 1 := by
  rcases Nat.lt_or_ge v g.nodes.size with hv | hv
  · by_cases hr : v = r
    · rw [hr, h.edgesInto_root]
      omega
    · rw [h.edgesInto_other v hv hr]
  · rw [hl.edgesInto_of_le hv]
    omega

/-- Two edges into a node of a tree come from one parent. -/
theorem parent_unique (h : g.RootedAt r) (hl : g.Linked) (hu : g.HasEdge u v)
    (hw : g.HasEdge w v) : u = w :=
  eq_of_edgesInto_le_one (h.edgesInto_le_one hl v) hu hw

theorem not_hasEdge_root (h : g.RootedAt r) : ¬ g.HasEdge u r :=
  edgesInto_eq_zero_iff.1 h.edgesInto_root u

theorem isTreeAt (h : g.RootedAt r) (hl : g.Linked) : g.IsTreeAt r := by
  refine ⟨h.lt_size, fun v hv => ?_⟩
  obtain ⟨ps, hps⟩ := reaches_iff_exists_walk.1 (h.reaches v hv)
  exact ⟨ps, hps, fun qs hqs => Walk.unique h.edgesInto_root (h.edgesInto_le_one hl) hqs hps⟩

/-- A tree has one edge fewer than nodes. -/
theorem size_edges (h : g.RootedAt r) (hl : g.Linked) : g.edges.size + 1 = g.nodes.size := by
  have hr : r ∈ Finset.range g.nodes.size := Finset.mem_range.2 h.lt_size
  have hone : ∀ i ∈ (Finset.range g.nodes.size).erase r, g.edgesInto i = 1 := by
    intro i hi
    obtain ⟨hne, hlt⟩ := Finset.mem_erase.1 hi
    exact h.edgesInto_other i (Finset.mem_range.1 hlt) hne
  have hsum := hl.sum_edgesInto
  rw [← Finset.add_sum_erase _ _ hr, h.edgesInto_root, Finset.sum_congr rfl hone,
    Finset.sum_const_nat fun _ _ => rfl, Finset.card_erase_of_mem hr, Finset.card_range] at hsum
  have hpos := h.lt_size
  omega

end RootedAt

namespace IsTreeAt

theorem not_hasEdge_root (h : g.IsTreeAt r) (hl : g.Linked) : ¬ g.HasEdge u r := by
  intro he
  obtain ⟨ps, hps, -⟩ := h.2 u (hl.inRange he).1
  obtain ⟨_, _, huniq⟩ := h.2 r h.1
  exact absurd ((huniq _ (hps.step he)).trans (huniq _ .start).symm) (by simp)

theorem parent_unique (h : g.IsTreeAt r) (hl : g.Linked) (hu : g.HasEdge u v)
    (hw : g.HasEdge w v) : u = w := by
  obtain ⟨ps, hps, -⟩ := h.2 u (hl.inRange hu).1
  obtain ⟨qs, hqs, -⟩ := h.2 w (hl.inRange hw).1
  obtain ⟨_, _, huniq⟩ := h.2 v (hl.inRange hu).2
  exact (List.cons.inj ((huniq _ (hps.step hu)).trans (huniq _ (hqs.step hw)).symm)).1

theorem rootedAt (h : g.IsTreeAt r) (hl : g.Linked) (hn : g.edges.toList.Nodup) :
    g.RootedAt r := by
  have hreach (v : Nat) (hv : v < g.nodes.size) : g.Reaches r v :=
    reaches_iff_exists_walk.2 (h.2 v hv).exists
  refine ⟨h.1, ?_, fun v hv hne => ?_, hreach⟩
  · exact edgesInto_eq_zero_iff.2 fun u => h.not_hasEdge_root hl
  · have hle := Graph.edgesInto_le_one hn fun u w (hu : g.HasEdge u v) (hw : g.HasEdge w v) =>
      h.parent_unique hl hu hw
    have hpos : 0 < g.edgesInto v := by
      rcases Relation.ReflTransGen.cases_tail (hreach v hv) with rfl | ⟨u, -, hu⟩
      · exact absurd rfl hne
      · exact edgesInto_pos_iff.2 ⟨u, hu⟩
    omega

end IsTreeAt

/-- Over distinct edges the walks of a graph tell a tree by its edges into each node. -/
theorem isTreeAt_iff_rootedAt (hl : g.Linked) (hn : g.edges.toList.Nodup) :
    g.IsTreeAt r ↔ g.RootedAt r :=
  ⟨fun h => h.rootedAt hl hn, fun h => h.isTreeAt hl⟩

end TreeCorpus.Graph
