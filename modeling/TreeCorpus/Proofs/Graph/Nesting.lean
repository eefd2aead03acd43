import Mathlib.Algebra.Order.Field.Basic
import Mathlib.Algebra.Order.Field.Rat
import Mathlib.Order.CompletePartialOrder
import Mathlib.Order.Interval.Set.Basic
import Mathlib.Tactic.Linarith
import Mathlib.Tactic.Ring
import TreeCorpus.Proofs.Graph.Placement
import TreeCorpus.Proofs.Number.Exact

/-!
# Spans of a layout nest as the tree does

Over an ordered field the children of a node cut its span into equal parts without a gap. Along a
walk spans therefore lie inside one another, and where two walks part they go on in parts with no
common interior. So the span of a node contains those of its descendants and shares no interior
with any other (`layout_nests`).
-/

namespace TreeCorpus

open Number

namespace Placement

/-! ## Two spans -/

section

variable {K : Type} [LinearOrder K] {p q r : Placement K}

/-- One span lies inside another. -/
def Inside (q p : Placement K) : Prop := p.left ≤ q.left ∧ q.right ≤ p.right

/-- One span ends where the other begins or before. -/
def Apart (p q : Placement K) : Prop := p.right ≤ q.left ∨ q.right ≤ p.left

theorem Inside.trans (h : r.Inside q) (h' : q.Inside p) : r.Inside p :=
  ⟨h'.1.trans h.1, h.2.trans h'.2⟩

theorem Apart.symm (h : p.Apart q) : q.Apart p := Or.symm h

theorem Apart.mono (h : p.Apart q) (hr : r.Inside p) : r.Apart q := by
  rcases h with h | h
  · exact Or.inl (hr.2.trans h)
  · exact Or.inr (h.trans hr.1)

end

/-! ## Parts of a span -/

variable {K : Type} [Field K]

/-- Spans of width `w`, each from where the one before it ends, that lead from `left` to `right`. -/
def Tiles (w : K) : K → List (Placement K) → K → Prop
  | left, [], right => left = right
  | left, q :: qs, right => q.left = left ∧ q.right - q.left = w ∧ Tiles w q.right qs right

variable {m : LayoutMeasures K} {p q : Placement K} {n k l : Nat}

theorem left_root (m : LayoutMeasures K) : (root m).left = 0 := Nat.cast_zero

theorem right_root (m : LayoutMeasures K) : (root m).right = m.width := rfl

theorem y_root (m : LayoutMeasures K) : (root m).y = 0 := Nat.cast_zero

theorem x_ofSpan (left right y : K) (depth : Nat) :
    (ofSpan left right y depth).x = (left + right) / 2 := by
  show (left + right) / ((2 : Nat) : K) = _
  rw [Nat.cast_ofNat]

theorem left_child : (p.child m n k).left = p.left + k * ((p.right - p.left) / n) := rfl

theorem right_child : (p.child m n k).right = p.left + (k + 1) * ((p.right - p.left) / n) := by
  show p.left + ((k + 1 : Nat) : K) * ((p.right - p.left) / n) = _
  rw [Nat.cast_add, Nat.cast_one]

theorem y_child : (p.child m n k).y = p.y - m.levelGap := rfl

theorem tiles_of_children {qs : List (Placement K)}
    (h : ∀ j q, qs[j]? = some q → q = p.child m n (k + j)) :
    Tiles ((p.right - p.left) / n) (p.left + k * ((p.right - p.left) / n)) qs
      (p.left + (k + qs.length) * ((p.right - p.left) / n)) := by
  induction qs generalizing k with
  | nil => simp [Tiles]
  | cons q qs ih =>
    have hq : q = p.child m n k := h 0 q rfl
    have hrest := ih (k := k + 1) fun j q' hj => by
      rw [Nat.add_assoc, Nat.add_comm 1 j]
      exact h (j + 1) q' hj
    refine ⟨hq ▸ left_child, ?_, ?_⟩
    · rw [hq, left_child, right_child]
      ring
    · rw [Nat.cast_add_one] at hrest
      rw [hq, right_child, List.length_cons, Nat.cast_add_one, ← add_assoc, add_right_comm]
      exact hrest

variable [LinearOrder K] [IsStrictOrderedRing K]

theorem left_child_lt (hp : p.left < p.right) (hk : k < n) :
    (p.child m n k).left < (p.child m n k).right := by
  have hn : (0 : K) < n := Nat.cast_pos.2 (Nat.zero_lt_of_lt hk)
  have hstep := div_pos (sub_pos.2 hp) hn
  rw [left_child, right_child]
  linarith

theorem inside_child (hp : p.left < p.right) (hk : k < n) : (p.child m n k).Inside p := by
  have hn : (0 : K) < n := Nat.cast_pos.2 (Nat.zero_lt_of_lt hk)
  have hstep := div_pos (sub_pos.2 hp) hn
  have hk' : (k : K) + 1 ≤ n := by exact_mod_cast hk
  refine ⟨?_, ?_⟩
  · rw [left_child]
    exact le_add_of_nonneg_right (mul_nonneg k.cast_nonneg hstep.le)
  · have hall : (n : K) * ((p.right - p.left) / n) = p.right - p.left := mul_div_cancel₀ _ hn.ne'
    have hle := mul_le_mul_of_nonneg_right hk' hstep.le
    rw [right_child]
    linarith

theorem apart_children (hp : p.left < p.right) (hn : k < n) (hkl : k ≠ l) :
    (p.child m n k).Apart (p.child m n l) := by
  have hn : (0 : K) < n := Nat.cast_pos.2 (Nat.zero_lt_of_lt hn)
  have hstep := (div_pos (sub_pos.2 hp) hn).le
  have hle {i j : Nat} (hij : i < j) : (p.child m n i).right ≤ (p.child m n j).left := by
    have hcast : (i : K) + 1 ≤ j := by exact_mod_cast hij
    rw [left_child, right_child]
    exact add_le_add_right (mul_le_mul_of_nonneg_right hcast hstep) _
  rcases Nat.lt_or_gt_of_ne hkl with h | h
  · exact Or.inl (hle h)
  · exact Or.inr (hle h)

end Placement

namespace Graph

open Placement

variable {K : Type} [Field K] {g : Graph} {m : LayoutMeasures K} {root u v w : Nat}
  {place : Nat → Placement K}
  {ps : List Nat}

/-! ## Along walks -/

namespace Places

/-- The depth of a node is the length of the walk that it ends. -/
theorem depth_and_y (h : g.Places m root place) (hw : g.Walk root (v :: ps)) :
    (place v).depth = ps.length ∧ (place v).y = -(ps.length * m.levelGap) := by
  induction ps generalizing v with
  | nil =>
    cases hw
    rw [h.root_eq, depth_root, y_root, List.length_nil, Nat.cast_zero, zero_mul, neg_zero]
    exact ⟨rfl, rfl⟩
  | cons u ps ih =>
    cases hw with
    | step hu he =>
      obtain ⟨k, -, hv⟩ := h.exists_child he
      obtain ⟨hd, hy⟩ := ih hu
      rw [hv, depth_child, y_child, hd, hy, List.length_cons, Nat.cast_add, Nat.cast_one]
      exact ⟨rfl, by ring⟩

theorem x_eq (h : g.Places m root place) (hv : g.Reaches root v) :
    (place v).x = ((place v).left + (place v).right) / 2 := by
  rcases Relation.ReflTransGen.cases_tail hv with rfl | ⟨u, -, he⟩
  · rw [h.root_eq]
    exact x_ofSpan _ _ _ _
  · obtain ⟨k, -, hv⟩ := h.exists_child he
    rw [hv]
    exact x_ofSpan _ _ _ _

theorem depth_le (h : g.Places m root place) (hv : g.Reaches u v) :
    (place u).depth ≤ (place v).depth := by
  induction hv with
  | refl => exact Nat.le_refl _
  | tail _ he ih =>
    rw [h.depth_of_hasEdge he]
    omega

theorem depth_lt (h : g.Places m root place) (hv : g.Reaches u v) (hne : u ≠ v) :
    (place u).depth < (place v).depth := by
  rcases Relation.ReflTransGen.cases_tail hv with rfl | ⟨w, hw, he⟩
  · exact absurd rfl hne
  · have hle := h.depth_le hw
    rw [h.depth_of_hasEdge he]
    omega

variable [LinearOrder K] [IsStrictOrderedRing K]

/-- No span of a node that is reached is empty. -/
theorem left_lt_right (h : g.Places m root place) (hm : 0 < m.width) (hv : g.Reaches root v) :
    (place v).left < (place v).right := by
  induction hv with
  | refl =>
    rw [h.root_eq, left_root, right_root]
    exact hm
  | tail _ he ih =>
    obtain ⟨k, hk, hv⟩ := h.exists_child he
    rw [hv]
    exact left_child_lt ih hk

theorem inside_of_hasEdge (h : g.Places m root place) (hm : 0 < m.width) (hu : g.Reaches root u)
    (he : g.HasEdge u v) : (place v).Inside (place u) := by
  obtain ⟨k, hk, hv⟩ := h.exists_child he
  rw [hv]
  exact inside_child (h.left_lt_right hm hu) hk

theorem inside_of_reaches (h : g.Places m root place) (hm : 0 < m.width) (hu : g.Reaches root u)
    (hv : g.Reaches u v) : (place v).Inside (place u) := by
  induction hv with
  | refl => exact ⟨le_refl _, le_refl _⟩
  | tail hw he ih => exact (h.inside_of_hasEdge hm (hu.trans hw) he).trans ih

theorem apart_of_siblings (h : g.Places m root place) (hm : 0 < m.width) (hu : g.Reaches root u)
    (hv : g.HasEdge u v) (hw : g.HasEdge u w) (hne : v ≠ w) : (place v).Apart (place w) := by
  obtain ⟨k, hk⟩ := hv.exists_target
  obtain ⟨l, hl⟩ := hw.exists_target
  have hkl : k ≠ l := by
    rintro rfl
    exact hne (Option.some.inj (hk.symm.trans hl))
  rw [h.child_eq hk, h.child_eq hl]
  exact apart_children (h.left_lt_right hm hu) (List.getElem?_eq_some_iff.1 hk).1 hkl

/-- Of two nodes one is below the other or their spans are apart. -/
theorem reaches_or_apart (h : g.Places m root place) (hm : 0 < m.width) (hv : g.Reaches root v)
    (hw : g.Reaches root w) :
    g.Reaches v w ∨ g.Reaches w v ∨ (place v).Apart (place w) := by
  induction hv with
  | refl => exact Or.inl hw
  | @tail u v hu he ih =>
    rcases ih with huw | hwu | hap
    · rcases Relation.ReflTransGen.cases_head huw with rfl | ⟨x, hx, hxw⟩
      · exact Or.inr (Or.inl (.single he))
      · -- the walks to the two nodes part at `u`, unless they go on alike
        by_cases hvx : v = x
        · exact Or.inl (hvx ▸ hxw)
        · have hsib := h.apart_of_siblings hm hu he hx hvx
          have hin := h.inside_of_reaches hm (hu.tail hx) hxw
          exact Or.inr (Or.inr (hsib.symm.mono hin).symm)
    · exact Or.inr (Or.inl (hwu.tail he))
    · exact Or.inr (Or.inr (hap.mono (h.inside_of_hasEdge hm hu he)))

end Places

/-! ## The whole tree -/

variable [LinearOrder K] [IsStrictOrderedRing K]

/-- Places whose spans nest as the tree below `root` does. -/
structure Nests (g : Graph) (m : LayoutMeasures K) (root : Nat) (place : Nat → Placement K) :
    Prop where
  root_span : (place root).left = 0 ∧ (place root).right = m.width ∧ (place root).y = 0
  span_proper : ∀ i < g.nodes.size, (place i).left < (place i).right
  midpoint : ∀ i < g.nodes.size, (place i).x = ((place i).left + (place i).right) / 2
  level : ∀ i ps, g.Walk root (i :: ps) →
    (place i).depth = ps.length ∧ (place i).y = -(ps.length * m.levelGap)
  children_tile : ∀ u < g.nodes.size, g.targets u ≠ [] →
    Tiles (((place u).right - (place u).left) / (g.targets u).length) (place u).left
      ((g.targets u).map place) (place u).right
  ancestor_contains : ∀ i < g.nodes.size, ∀ j < g.nodes.size, g.Reaches i j →
    Set.Icc (place j).left (place j).right ⊆ Set.Icc (place i).left (place i).right
  others_disjoint : ∀ i < g.nodes.size, ∀ j < g.nodes.size, ¬ g.Reaches i j → ¬ g.Reaches j i →
    Disjoint (Set.Ioo (place i).left (place i).right) (Set.Ioo (place j).left (place j).right)
  x_ne : ∀ i < g.nodes.size, ∀ j < g.nodes.size, i ≠ j → (place i).depth = (place j).depth →
    (place i).x ≠ (place j).x

theorem Places.children_tile (h : g.Places m root place) (hne : g.targets u ≠ []) :
    Tiles (((place u).right - (place u).left) / (g.targets u).length) (place u).left
      ((g.targets u).map place) (place u).right := by
  have hchild : ∀ j q, ((g.targets u).map place)[j]? = some q →
      q = (place u).child m (g.targets u).length (0 + j) := by
    intro j q hj
    rw [List.getElem?_map, Option.map_eq_some_iff] at hj
    obtain ⟨c, hc, rfl⟩ := hj
    rw [Nat.zero_add]
    exact h.child_eq hc
  have htiles := tiles_of_children hchild
  have hn : ((g.targets u).length : K) ≠ 0 :=
    Nat.cast_ne_zero.2 fun h0 => hne (List.length_eq_zero_iff.1 h0)
  rw [List.length_map, Nat.cast_zero, zero_add, zero_mul, add_zero, mul_div_cancel₀ _ hn,
    add_sub_cancel] at htiles
  exact htiles

theorem Places.nests (h : g.Places m root place) (hr : g.RootedAt root) (hm : 0 < m.width) :
    g.Nests m root place := by
  refine ⟨?_, fun i hi => h.left_lt_right hm (hr.reaches i hi),
    fun i hi => h.x_eq (hr.reaches i hi), fun i ps hw => h.depth_and_y hw,
    fun u _ hne => h.children_tile hne, fun i hi j _ hij => ?_, fun i hi j hj hij hji => ?_,
    fun i hi j hj hne hd hx => ?_⟩
  · rw [h.root_eq]
    exact ⟨left_root m, right_root m, y_root m⟩
  · have hin := h.inside_of_reaches hm (hr.reaches i hi) hij
    exact Set.Icc_subset_Icc hin.1 hin.2
  · have hap := ((h.reaches_or_apart hm (hr.reaches i hi) (hr.reaches j hj)).resolve_left
      hij).resolve_left hji
    apply Set.disjoint_left.2
    intro x hx hx'
    rcases hap with hap | hap
    · exact absurd (hx'.1.trans_le (hx.2.le.trans hap)) (lt_irrefl _)
    · exact absurd (hx.1.trans_le (hx'.2.le.trans hap)) (lt_irrefl _)
  · have hi' := h.left_lt_right hm (hr.reaches i hi)
    have hj' := h.left_lt_right hm (hr.reaches j hj)
    rw [h.x_eq (hr.reaches i hi), h.x_eq (hr.reaches j hj)] at hx
    rcases h.reaches_or_apart hm (hr.reaches i hi) (hr.reaches j hj) with hij | hji | hap
    · have := h.depth_lt hij hne
      omega
    · have := h.depth_lt hji hne.symm
      omega
    · rcases hap with hap | hap
      · linarith
      · linarith

/-- Laying out a tree in exact arithmetic succeeds and gives places whose spans nest as the tree
does, whatever the level gap. -/
theorem layout_nests (hb : g.Built) (hr : g.treeRoot = .ok root) (hm : 0 < m.width) :
    ∃ (l : Layout K) (place : Nat → Placement K), g.layout m none = .ok l ∧
      (∀ i id, g.idAt i = some id → l.placement id = some (place i)) ∧ g.Nests m root place := by
  have hl := hb.linked
  have h := (treeRoot_eq_ok_iff hl).1 hr
  refine ⟨_, g.placeAt m root, layout_none h hl m, fun i id hi => ?_,
    (places_placeAt h hl m).nests h hm⟩
  exact placement_mapIdx _ g.nodup_ids ((idAt_eq_getElem? g i).symm.trans hi)

/-- A node with two children. -/
def fork : Graph := ofPairs [("a", "b"), ("a", "c")]

theorem layout_nests_fork : fork.treeRoot = .ok 0 ∧
    ∃ (l : Layout ℚ) (place : Nat → Placement ℚ), fork.layout ⟨100, 20⟩ none = .ok l ∧
      (∀ i id, fork.idAt i = some id → l.placement id = some (place i)) ∧
      fork.Nests ⟨100, 20⟩ 0 place := by
  have hb : fork.Built := built_ofPairs _
  have hids : fork.ids = ["a", "b", "c"] := by
    unfold fork
    rw [ids_ofPairs]
    decide
  have hedges : fork.edges.toList = [(0, 1), (0, 2)] := by
    rw [hb.linked.toList_edges_eq, hids, fork, edgeIds_ofPairs]
    decide
  have hsize : fork.nodes.size = 3 := by
    rw [← length_ids, hids]
    rfl
  have hr : fork.RootedAt 0 := by
    refine ⟨by omega, ?_, fun v hv hne => ?_, fun v hv => ?_⟩
    · unfold edgesInto
      rw [hedges]
      rfl
    · obtain rfl | rfl : v = 1 ∨ v = 2 := by omega
      all_goals
        unfold edgesInto
        rw [hedges]
        rfl
    · obtain rfl | hv : v = 0 ∨ (0, v) ∈ [(0, 1), (0, 2)] := by
        simp
        omega
      · exact .refl
      · refine .single ?_
        unfold HasEdge
        rw [hedges]
        exact hv
  have hroot := treeRoot_of_rootedAt hb.linked hr
  exact ⟨hroot, layout_nests hb hroot (by norm_num)⟩

end Graph

end TreeCorpus
