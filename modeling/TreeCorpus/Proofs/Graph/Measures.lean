import TreeCorpus.Proofs.Graph.Depth
import TreeCorpus.Proofs.Graph.Nesting

/-!
# What the measures of a layout decide

Over an ordered field the width decides whether the spans of a layout have room, and the level gap
whether children lie below their parents: each does so exactly when it is positive
(`Places.wide_iff`, `Places.descends_iff`).
-/

namespace TreeCorpus

open Number

namespace Graph

variable {g : Graph} {root : Nat} {requested : Option String}

/-! ## The root -/

/-- A requested root is the root of the tree. -/
theorem treeRoot_of_resolveRoot (h : g.resolveRoot requested = .ok root) :
    g.treeRoot = .ok root := by
  unfold resolveRoot at h
  split at h
  · exact nomatch h
  · rename_i r hr
    rw [hr]
    exact h
  · rename_i r id hr
    split at h
    · exact nomatch h
    · split at h
      · rename_i heq
        rw [hr, ← heq]
        exact h
      · exact nomatch h

/-- From a requested root the tree is laid out as from its own. -/
theorem layout_eq_ok_iff {α : Type} [Arithmetic α] {m : LayoutMeasures α} {l : Layout α}
    (hl : g.Linked) : g.layout m requested = .ok l ↔
      ∃ root, g.resolveRoot requested = .ok root ∧ l = g.layoutOf (g.placeAt m root) := by
  cases hroot : g.resolveRoot requested with
  | error v =>
    unfold layout
    rw [hroot]
    simp
  | ok root =>
    have hr := treeRoot_of_resolveRoot hroot
    have hnone := layout_none ((treeRoot_eq_ok_iff hl).1 hr) hl m
    have hsame : g.layout m requested = g.layout m none := by
      have hresolve : g.resolveRoot none = .ok root := by
        unfold resolveRoot
        rw [hr]
      unfold layout
      rw [hroot, hresolve]
    rw [hsame, hnone, Except.ok.injEq]
    constructor
    · intro h
      exact ⟨root, rfl, h.symm⟩
    · rintro ⟨r, hr', rfl⟩
      obtain rfl := Except.ok.inj hr'
      rfl

end Graph

/-! ## Room and descent -/

/-- Every span has room between its ends. -/
def Layout.Wide {K : Type} [LT K] (l : Layout K) : Prop := ∀ e ∈ l.entries, e.2.left < e.2.right

namespace Graph

/-- Every child lies strictly below its parent. -/
def Descends {K : Type} [LT K] (g : Graph) (l : Layout K) : Prop :=
  ∀ e ∈ l.entries, ∀ e' ∈ l.entries, g.parent e'.1 = some e.1 → e'.2.y < e.2.y

variable {K : Type} [Field K] [LinearOrder K] [IsStrictOrderedRing K] {g : Graph}
  {m : LayoutMeasures K} {root : Nat} {place : Nat → Placement K}

namespace Places

variable (hp : g.Places m root place) (h : g.RootedAt root)

include hp h

theorem wide_iff : (g.layoutOf place).Wide ↔ 0 < m.width := by
  constructor
  · intro hwide
    have htop := List.getElem?_eq_getElem (length_ids g ▸ h.lt_size)
    have hlt := hwide (_, place root) (mem_entries_layoutOf.2 ⟨root, htop, rfl⟩)
    rwa [hp.root_eq, Placement.left_root, Placement.right_root] at hlt
  · intro hm e he
    obtain ⟨i, hid, hplace⟩ := mem_entries_layoutOf.1 he
    rw [hplace]
    exact hp.left_lt_right hm (h.reaches i (lt_size_of_getElem?_ids hid))

theorem descends_iff (hl : g.Linked) (he : 0 < g.edges.size) :
    g.Descends (g.layoutOf place) ↔ 0 < m.levelGap := by
  have hgap {u v : Nat} (huv : g.HasEdge u v) : (place v).y < (place u).y ↔ 0 < m.levelGap := by
    obtain ⟨k, -, hv⟩ := hp.exists_child huv
    rw [hv, Placement.y_child, sub_lt_self_iff]
  constructor
  · intro hdescends
    obtain ⟨u, v, huv⟩ : ∃ u v, g.HasEdge u v :=
      ⟨_, _, Array.mem_toList_iff.2 (Array.getElem_mem he)⟩
    have hu := List.getElem?_eq_getElem (length_ids g ▸ (hl.inRange huv).1)
    have hv := List.getElem?_eq_getElem (length_ids g ▸ (hl.inRange huv).2)
    refine (hgap huv).1 (hdescends (_, place u) (mem_entries_layoutOf.2 ⟨u, hu, rfl⟩) (_, place v)
      (mem_entries_layoutOf.2 ⟨v, hv, rfl⟩) ?_)
    exact (h.parent_eq_some_iff hl).2 (mem_edgeIds_iff.2 ⟨u, v, huv, hu, hv⟩)
  · intro hm e he e' he' hparent
    obtain ⟨i, hid, hplace⟩ := mem_entries_layoutOf.1 he
    obtain ⟨j, hjd, hplace'⟩ := mem_entries_layoutOf.1 he'
    obtain ⟨u, v, huv, hu, hv⟩ := mem_edgeIds_iff.1 ((h.parent_eq_some_iff hl).1 hparent)
    rw [hplace, hplace', getElem?_ids_inj hid hu, getElem?_ids_inj hjd hv]
    exact (hgap huv).2 hm

end Places

end Graph

end TreeCorpus
