import Mathlib.Logic.Function.Iterate
import TreeCorpus.Proofs.Graph.Measures

/-!
# Seams and levels

Rounding leaves no gap between the spans of neighbouring children and puts no two nodes of one depth
on different levels. Nothing is asked of the arithmetic: the end of one span and the start of the
next are the same expression (`Placement.right_child_eq_left_child`), and how low a node lies is a
subtraction repeated as often as its depth tells, whatever path leads to it
(`Places.y_eq_iterate`). Both hold in every layout of a tree (`layout_aligned`).
-/

namespace TreeCorpus

open Number

variable {α : Type} [Arithmetic α]

namespace Placement

variable {m : LayoutMeasures α} {p : Placement α} {n k : Nat}

/-- Neighbouring parts of a span are cut at the same place. -/
theorem right_child_eq_left_child : (p.child m n k).right = (p.child m n (k + 1)).left := rfl

/-- How low a node of a given depth lies: each level is one subtraction. -/
def levelY (m : LayoutMeasures α) (depth : Nat) : α :=
  (fun y => y - m.levelGap)^[depth] ((0 : Nat) : α)

theorem y_root_eq_levelY (m : LayoutMeasures α) : (root m).y = levelY m (root m).depth := rfl

theorem y_child_eq_levelY (hp : p.y = levelY m p.depth) :
    (p.child m n k).y = levelY m (p.child m n k).depth := by
  rw [depth_child, levelY, Function.iterate_succ_apply', ← levelY, ← hp]
  rfl

end Placement

namespace Graph

variable {g : Graph} {m : LayoutMeasures α} {root u v c c' k : Nat} {place : Nat → Placement α}
  {id id' top : String} {requested : Option String}

/-! ## Children by name -/

theorem Linked.targets_idxOf_eq_map (hl : g.Linked) (id : String) :
    g.targets (g.ids.idxOf id) = (g.children id).map g.ids.idxOf := by
  rw [hl.targets_idxOf, hl.children_eq_edgeIds, List.map_map]
  rfl

theorem Linked.mem_ids_of_mem_children (hl : g.Linked) (h : id' ∈ g.children id) :
    id' ∈ g.ids := by
  rw [hl.children_eq_edgeIds] at h
  obtain ⟨e, he, rfl⟩ := List.mem_map.1 h
  exact (mem_ids_of_mem_edgeIds (List.mem_of_mem_filter he)).2

/-! ## The places of a tree -/

namespace Places

/-- The span of a child ends where that of the next child begins. -/
theorem right_eq_left (hp : g.Places m root place) (hk : (g.targets u)[k]? = some c)
    (hk' : (g.targets u)[k + 1]? = some c') : (place c).right = (place c').left := by
  rw [hp.child_eq hk, hp.child_eq hk']
  exact Placement.right_child_eq_left_child

/-- The depth of a node alone tells how low it lies. -/
theorem y_eq_levelY (hp : g.Places m root place) (hv : g.Reaches root v) :
    (place v).y = Placement.levelY m (place v).depth := by
  induction hv with
  | refl =>
    rw [hp.root_eq]
    exact Placement.y_root_eq_levelY m
  | tail _ he ih =>
    obtain ⟨k, -, hv⟩ := hp.exists_child he
    rw [hv]
    exact Placement.y_child_eq_levelY ih

end Places

/-! ## Layouts -/

/-- Neighbouring children share an end, and nodes of one depth below `top` are on one level. -/
structure Aligned (g : Graph) (m : LayoutMeasures α) (top : String) (l : Layout α) : Prop where
  names_eq : l.entries.map Prod.fst = g.ids
  depth_iff : ∀ e ∈ l.entries, ∀ n, g.LinksUp top e.1 n ↔ n = e.2.depth
  /-- Child number `k` ends where child number `k + 1` begins. -/
  seam : ∀ (id c c' : String) (k : Nat), (g.children id)[k]? = some c →
    (g.children id)[k + 1]? = some c' →
    ∃ p p', l.placement c = some p ∧ l.placement c' = some p' ∧ p.right = p'.left
  level : ∀ e ∈ l.entries, ∀ e' ∈ l.entries, e.2.depth = e'.2.depth → e.2.y = e'.2.y
  y_eq : ∀ e ∈ l.entries, e.2.y = Placement.levelY m e.2.depth

theorem Places.aligned (hp : g.Places m root place) (h : g.RootedAt root) (hl : g.Linked)
    (htop : g.ids[root]? = some top) : g.Aligned m top (g.layoutOf place) := by
  have hy : ∀ e ∈ (g.layoutOf place).entries, e.2.y = Placement.levelY m e.2.depth := by
    intro e he
    obtain ⟨i, hid, hplace⟩ := mem_entries_layoutOf.1 he
    rw [hplace]
    exact hp.y_eq_levelY (h.reaches i (lt_size_of_getElem?_ids hid))
  have hat {id : String} (hid : id ∈ g.ids) :
      (g.layoutOf place).placement id = some (place (g.ids.idxOf id)) :=
    placement_mapIdx place g.nodup_ids (List.getElem?_idxOf hid)
  refine ⟨map_fst_entries_layoutOf g place, fun e he n => hp.linksUp_iff h hl htop he,
    fun id c c' k hk hk' => ?_, fun e he e' he' hd => ?_, hy⟩
  · have hc := hl.mem_ids_of_mem_children (List.mem_of_getElem? hk)
    have hc' := hl.mem_ids_of_mem_children (List.mem_of_getElem? hk')
    refine ⟨_, _, hat hc, hat hc', hp.right_eq_left (u := g.ids.idxOf id) (k := k) ?_ ?_⟩
    · rw [hl.targets_idxOf_eq_map, List.getElem?_map, hk]
      rfl
    · rw [hl.targets_idxOf_eq_map, List.getElem?_map, hk']
      rfl
  · rw [hy e he, hy e' he', hd]

/-- Every layout of a tree is aligned, in any arithmetic and for any measures. -/
theorem layout_aligned (hb : g.Built) (hr : g.treeRoot = .ok root) (m : LayoutMeasures α) :
    (∃ l, g.layout m none = .ok l) ∧ ∃ top, g.idAt root = some top ∧
      ∀ requested l, g.layout m requested = .ok l → g.Aligned m top l := by
  have hl := hb.linked
  have h := (treeRoot_eq_ok_iff hl).1 hr
  obtain ⟨top, htop⟩ : ∃ top, g.ids[root]? = some top :=
    ⟨_, List.getElem?_eq_getElem (length_ids g ▸ h.lt_size)⟩
  refine ⟨⟨_, layout_none h hl m⟩, top, (idAt_eq_getElem? g root).trans htop,
    fun requested l hlayout => ?_⟩
  obtain ⟨root', hroot', rfl⟩ := (layout_eq_ok_iff hl).1 hlayout
  obtain rfl : root' = root := Except.ok.inj ((treeRoot_of_resolveRoot hroot').symm.trans hr)
  exact (places_placeAt h hl m).aligned h hl htop

/-- Thirds of a span, whose ends are rounded, and two nodes of depth two below different parents. -/
def comb : Graph := ofPairs [("a", "b"), ("a", "c"), ("a", "d"), ("b", "e"), ("d", "f")]

theorem layout_aligned_comb : comb.Built ∧ comb.treeRoot = .ok 0 ∧
    ∃ m : LayoutMeasures Double,
      m = ⟨Literal.roundDecimal false 10 0, Literal.roundDecimal false 2 (-1)⟩ ∧
      (∃ l, comb.layout m none = .ok l) ∧ ∃ top, comb.idAt 0 = some top ∧
        ∀ requested l, comb.layout m requested = .ok l → comb.Aligned m top l := by
  have hb : comb.Built := built_ofPairs _
  have hr : comb.RootedAt 0 := rootedAt_ofPairs (show _ = ["a", "b", "c", "d", "e", "f"] by decide)
    (by decide) (by decide) (by decide)
  have hroot := treeRoot_of_rootedAt hb.linked hr
  exact ⟨hb, hroot, _, rfl, layout_aligned hb hroot _⟩

end Graph

end TreeCorpus
