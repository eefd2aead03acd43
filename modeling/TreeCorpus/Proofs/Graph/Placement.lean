import TreeCorpus.Graph.Layout
import TreeCorpus.Proofs.Graph.Tree

/-!
# Where a layout places the nodes of a tree

Placing the children of a node writes only to the targets of its edges. In a tree no later node
has the same targets, so each node keeps the place that its parent gave it. The finished layout
thus places every node, the root on the whole width and the targets of each node's edges on their
parts of its span (`places_placeAt`), whatever the arithmetic.
-/

namespace TreeCorpus

open Number

namespace Placement

variable {α : Type} [Arithmetic α] {m : LayoutMeasures α} {p : Placement α} {n k : Nat}

theorem depth_root (m : LayoutMeasures α) : (root m).depth = 0 := rfl

theorem depth_child : (p.child m n k).depth = p.depth + 1 := rfl

end Placement

namespace Graph

/-! ## Entries by position -/

section

variable {α : Type}

/-- Pairing the nodes with a place each gives an entry for each, in order. -/
theorem filterMap_zip_eq_mapIdx {ns : List Node} {qs : List (Option (Placement α))}
    {f : Nat → Placement α} (hlen : qs.length = ns.length)
    (hq : ∀ i < ns.length, qs[i]? = some (some (f i))) :
    (ns.zip qs).filterMap (fun e => e.2.map (e.1.id, ·)) =
      (ns.map Node.id).mapIdx fun i id => (id, f i) := by
  induction ns generalizing qs f with
  | nil => rfl
  | cons n ns ih =>
    rcases qs with _ | ⟨q, qs⟩
    · exact absurd hlen (by simp)
    · obtain rfl : q = some (f 0) := Option.some.inj (hq 0 (Nat.succ_pos _))
      rw [List.map_cons, List.mapIdx_cons, List.zip_cons_cons, List.filterMap_cons]
      exact congrArg ((n.id, f 0) :: ·)
        (ih (Nat.succ.inj hlen) fun i hi => hq (i + 1) (Nat.succ_lt_succ hi))

/-- The entry of a name is the one at its position. -/
theorem placement_mapIdx {names : List String} {id : String} (f : Nat → Placement α)
    (hn : names.Nodup) (hi : names[i]? = some id) :
    (Layout.mk (names.mapIdx fun i id => (id, f i))).placement id = some (f i) := by
  obtain ⟨hlt, rfl⟩ := List.getElem?_eq_some_iff.1 hi
  have hfind : (names.mapIdx fun i id => (id, f i)).find? (·.1 == names[i]) =
      some (names[i], f i) := by
    refine List.find?_eq_some_iff_getElem.2 ⟨beq_self_eq_true _, i, by simpa using hlt, by simp,
      fun j hj => ?_⟩
    rw [List.getElem_mapIdx, Bool.not_eq_true', beq_eq_false_iff_ne]
    intro e
    exact Nat.ne_of_lt hj ((List.Nodup.getElem_inj_iff hn).1 e)
  unfold Layout.placement
  rw [hfind]
  rfl

end

variable {α : Type} [Arithmetic α] {g : Graph} {m : LayoutMeasures α} {root i u v c k : Nat}
  {p : Placement α} {ps : Array (Option (Placement α))} {done later : List Nat}

/-! ## Writing the children of one node -/

section

variable {β : Type} {f : Nat × Nat → β} {l : List (Nat × Nat)} {xs : Array β} {e : Nat × Nat}

theorem size_foldl_setIfInBounds :
    (l.foldl (fun ps c => ps.setIfInBounds c.1 (f c)) xs).size = xs.size := by
  induction l generalizing xs with
  | nil => rfl
  | cons a l ih => rw [List.foldl_cons, ih, Array.size_setIfInBounds]

theorem getElem?_foldl_setIfInBounds_of_not_mem (h : ∀ c ∈ l, c.1 ≠ v) :
    (l.foldl (fun ps c => ps.setIfInBounds c.1 (f c)) xs)[v]? = xs[v]? := by
  induction l generalizing xs with
  | nil => rfl
  | cons a l ih =>
    rw [List.foldl_cons, ih fun c hc => h c (List.mem_cons_of_mem a hc)]
    exact Array.getElem?_setIfInBounds_ne (h a List.mem_cons_self)

theorem getElem?_foldl_setIfInBounds_of_mem (hn : (l.map Prod.fst).Nodup) (he : e ∈ l)
    (hlt : e.1 < xs.size) :
    (l.foldl (fun ps c => ps.setIfInBounds c.1 (f c)) xs)[e.1]? = some (f e) := by
  induction l generalizing xs with
  | nil => exact absurd he List.not_mem_nil
  | cons a l ih =>
    rw [List.map_cons, List.nodup_cons] at hn
    rw [List.foldl_cons]
    rcases List.mem_cons.1 he with rfl | he
    · have hne : ∀ c ∈ l, c.1 ≠ e.1 := fun c hc h => hn.1 (h ▸ List.mem_map_of_mem hc)
      rw [getElem?_foldl_setIfInBounds_of_not_mem hne]
      exact Array.getElem?_setIfInBounds_self_of_lt hlt
    · exact ih hn.2 he (by rwa [Array.size_setIfInBounds])

end

theorem size_placeChildren : (g.placeChildren m ps i).size = ps.size := by
  unfold placeChildren
  split
  · exact size_foldl_setIfInBounds
  · rfl

/-- Only the targets of a node's edges are written. -/
theorem getElem?_placeChildren_of_not_hasEdge (hl : g.Linked) (h : ¬ g.HasEdge i v) :
    (g.placeChildren m ps i)[v]? = ps[v]? := by
  unfold placeChildren
  split
  · refine getElem?_foldl_setIfInBounds_of_not_mem ?_
    rintro ⟨c, k⟩ hc rfl
    rw [hl.joined.childrenAt_eq] at hc
    exact h (mem_targets_iff.1 (List.fst_mem_of_mem_zipIdx hc))
  · rfl

theorem getElem?_placeChildren_of_target (hl : g.Linked) (hn : (g.targets i).Nodup)
    (hp : ps[i]? = some (some p)) (hk : (g.targets i)[k]? = some c) (hc : c < ps.size) :
    (g.placeChildren m ps i)[c]? = some (some (p.child m (g.targets i).length k)) := by
  unfold placeChildren
  rw [hp]
  simp only [hl.joined.childrenAt_eq]
  have hmem : (c, k) ∈ (g.targets i).zipIdx := List.mk_mem_zipIdx_iff_getElem?.2 hk
  have hfst : ((g.targets i).zipIdx.map Prod.fst).Nodup := by
    rw [List.zipIdx_map_fst]
    exact hn
  exact getElem?_foldl_setIfInBounds_of_mem
    (f := fun c => some (p.child m (g.targets i).length c.2)) hfst hmem hc

/-! ## Placing node after node -/

/-- The root and the targets of the nodes that are done have their places. -/
structure Placed (g : Graph) (m : LayoutMeasures α) (root : Nat) (done : List Nat)
    (ps : Array (Option (Placement α))) : Prop where
  size_eq : ps.size = g.nodes.size
  root_eq : ps[root]? = some (some (Placement.root m))
  child_eq : ∀ {u k c}, u ∈ done → (g.targets u)[k]? = some c → ∃ p, ps[u]? = some (some p) ∧
    ps[c]? = some (some (p.child m (g.targets u).length k))

/-- The root and every target of a node that is done have a place. -/
theorem Placed.exists_place (h : Placed g m root done ps)
    (hi : i = root ∨ ∃ u ∈ done, g.HasEdge u i) : ∃ p, ps[i]? = some (some p) := by
  rcases hi with rfl | ⟨u, hu, he⟩
  · exact ⟨_, h.root_eq⟩
  · obtain ⟨k, hk⟩ := he.exists_target
    obtain ⟨p, -, hp⟩ := h.child_eq hu hk
    exact ⟨_, hp⟩

theorem RootedAt.nodup_targets (h : g.RootedAt root) (hl : g.Linked) (u : Nat) :
    (g.targets u).Nodup := by
  apply List.nodup_iff_count_le_one.2
  intro v
  refine Nat.le_trans ?_ (h.edgesInto_le_one hl v)
  unfold targets
  rw [List.count, List.countP_map, edgesInto]
  exact List.Sublist.countP_le List.filter_sublist

/-- No edge leads from a node back to itself or to a node visited before it. -/
theorem RootedAt.not_hasEdge_of_visitOrder_eq (h : g.RootedAt root) (hl : g.Linked)
    (hv : g.visitOrder root = done ++ i :: later) (hu : u ∈ done ++ [i]) : ¬ g.HasEdge i u := by
  intro he
  have hi := not_mem_of_visitOrder_eq hl.joined h.lt_size hv
  obtain ⟨before, after, hb⟩ := List.append_of_mem hu
  have hsplit : g.visitOrder root = before ++ u :: (after ++ later) := by
    rw [hv, List.append_cons, hb, List.append_assoc, List.cons_append]
  have hsub {w : Nat} (hw : w ∈ before) : w ∈ done := by
    rcases List.eq_nil_or_concat after with rfl | ⟨after', x, rfl⟩
    · rwa [(List.append_inj' hb rfl).1]
    · rw [List.concat_eq_append, ← List.cons_append, ← List.append_assoc] at hb
      rw [(List.append_inj' hb rfl).1]
      exact List.mem_append_left _ hw
  rcases eq_root_or_of_visitOrder_eq hl.joined h.lt_size hsplit with rfl | ⟨w, hw, hwu⟩
  · exact h.not_hasEdge_root he
  · exact hi (h.parent_unique hl hwu he ▸ hsub hw)

/-- Placing the children of the next node leaves the places given before. -/
theorem Placed.placeChildren (hp : Placed g m root done ps) (h : g.RootedAt root) (hl : g.Linked)
    (hv : g.visitOrder root = done ++ i :: later) :
    Placed g m root (done ++ [i]) (g.placeChildren m ps i) := by
  have hback {u : Nat} (hu : u ∈ done ++ [i]) : ¬ g.HasEdge i u :=
    h.not_hasEdge_of_visitOrder_eq hl hv hu
  have hself : i ∈ done ++ [i] := List.mem_append_right done (List.mem_singleton_self i)
  have hi := not_mem_of_visitOrder_eq hl.joined h.lt_size hv
  refine ⟨size_placeChildren.trans hp.size_eq, ?_, fun {u k c} hu hk => ?_⟩
  · rw [getElem?_placeChildren_of_not_hasEdge hl h.not_hasEdge_root]
    exact hp.root_eq
  · have he := hasEdge_of_target hk
    rw [getElem?_placeChildren_of_not_hasEdge hl (hback hu)]
    rcases List.mem_append.1 hu with hu | hu
    · have hic : ¬ g.HasEdge i c := fun hic => hi (h.parent_unique hl hic he ▸ hu)
      rw [getElem?_placeChildren_of_not_hasEdge hl hic]
      exact hp.child_eq hu hk
    · obtain rfl := List.mem_singleton.1 hu
      obtain ⟨p, hpu⟩ := hp.exists_place (eq_root_or_of_visitOrder_eq hl.joined h.lt_size hv)
      have hc : c < ps.size := hp.size_eq ▸ (hl.inRange he).2
      exact ⟨p, hpu, getElem?_placeChildren_of_target hl (h.nodup_targets hl u) hpu hk hc⟩

theorem placed_foldl (h : g.RootedAt root) (hl : g.Linked) (m : LayoutMeasures α)
    (hv : g.visitOrder root = done ++ later) :
    Placed g m root done (done.foldl (g.placeChildren m)
      ((Array.replicate g.nodes.size none).setIfInBounds root (some (Placement.root m)))) := by
  induction done using List.reverseRecOn generalizing later with
  | nil =>
    refine ⟨by simp, ?_, fun hu => absurd hu List.not_mem_nil⟩
    exact Array.getElem?_setIfInBounds_self_of_lt (by simpa using h.lt_size)
  | append_singleton done i ih =>
    rw [List.append_assoc] at hv
    rw [List.foldl_append]
    exact (ih hv).placeChildren h hl hv

theorem placed_placeFrom (h : g.RootedAt root) (hl : g.Linked) (m : LayoutMeasures α) :
    Placed g m root (g.visitOrder root) (g.placeFrom m root) :=
  placed_foldl h hl m (List.append_nil _).symm

/-! ## The finished layout -/

/-- Places that give the root the whole width and cut each span among the targets of the edges
that leave its node. -/
structure Places (g : Graph) (m : LayoutMeasures α) (root : Nat) (place : Nat → Placement α) :
    Prop where
  root_eq : place root = Placement.root m
  child_eq : ∀ {u k c}, (g.targets u)[k]? = some c →
    place c = (place u).child m (g.targets u).length k

namespace Places

variable {place : Nat → Placement α}

theorem exists_child (h : g.Places m root place) (he : g.HasEdge u v) :
    ∃ k < (g.targets u).length, place v = (place u).child m (g.targets u).length k := by
  obtain ⟨k, hk⟩ := he.exists_target
  exact ⟨k, (List.getElem?_eq_some_iff.1 hk).1, h.child_eq hk⟩

/-- An edge leads one level down. -/
theorem depth_of_hasEdge (h : g.Places m root place) (he : g.HasEdge u v) :
    (place v).depth = (place u).depth + 1 := by
  obtain ⟨k, -, hv⟩ := h.exists_child he
  rw [hv, Placement.depth_child]

end Places

/-- The place of a position in the finished layout. -/
def placeAt (g : Graph) (m : LayoutMeasures α) (root i : Nat) : Placement α :=
  ((g.placeFrom m root)[i]?.join).getD (Placement.root m)

theorem placeAt_of_getElem? (h : (g.placeFrom m root)[i]? = some (some p)) :
    g.placeAt m root i = p := by
  unfold placeAt
  rw [h]
  rfl

/-- Every node has a place. -/
theorem getElem?_placeFrom (h : g.RootedAt root) (hl : g.Linked) (m : LayoutMeasures α)
    (hi : i < g.nodes.size) :
    (g.placeFrom m root)[i]? = some (some (g.placeAt m root i)) := by
  have hparent : i = root ∨ ∃ u ∈ g.visitOrder root, g.HasEdge u i := by
    rcases Relation.ReflTransGen.cases_tail (h.reaches i hi) with hr | ⟨u, hu, he⟩
    · exact Or.inl hr
    · exact Or.inr ⟨u, (mem_visitOrder_iff hl.joined h.lt_size).2 hu, he⟩
  obtain ⟨p, hp⟩ := (placed_placeFrom h hl m).exists_place hparent
  rw [hp, placeAt_of_getElem? hp]

/-- In a finished layout the root has the whole width and the targets of the edges out of each node
have their parts of its span. -/
theorem places_placeAt (h : g.RootedAt root) (hl : g.Linked) (m : LayoutMeasures α) :
    g.Places m root (g.placeAt m root) := by
  have hp := placed_placeFrom h hl m
  refine ⟨placeAt_of_getElem? hp.root_eq, fun {u k c} hk => ?_⟩
  have hu := (hl.inRange (hasEdge_of_target hk)).1
  obtain ⟨p, hpu, hpc⟩ :=
    hp.child_eq ((mem_visitOrder_iff hl.joined h.lt_size).2 (h.reaches u hu)) hk
  rw [placeAt_of_getElem? hpu, placeAt_of_getElem? hpc]

/-- A layout of a tree has one entry for each node, in node order. -/
theorem layout_none (h : g.RootedAt root) (hl : g.Linked) (m : LayoutMeasures α) :
    g.layout m none = .ok ⟨g.ids.mapIdx fun i id => (id, g.placeAt m root i)⟩ := by
  have hlen : (g.placeFrom m root).toList.length = g.nodes.toList.length :=
    (placed_placeFrom h hl m).size_eq
  have hplace : ∀ i < g.nodes.toList.length,
      (g.placeFrom m root).toList[i]? = some (some (g.placeAt m root i)) := by
    intro i hi
    rw [Array.getElem?_toList]
    exact getElem?_placeFrom h hl m hi
  have hroot : g.resolveRoot none = .ok root := by
    unfold resolveRoot
    rw [treeRoot_of_rootedAt hl h]
  unfold layout
  rw [hroot]
  simp only [filterMap_zip_eq_mapIdx hlen hplace]
  rfl

end Graph

end TreeCorpus
