import TreeCorpus.Proofs.Graph.Tree

/-!
# Finding what is not reached

A search that reads every mark and every node by position fails if one is out of range, and takes
the last child of a node first. One turn of it is a step of a traversal up to the order in which the
children wait (`Explores.exists_pop?`), and neither the bookkeeping of a traversal nor its work
depends on that order. So a search of any graph whose edges stay within the nodes takes at most one
node more off its stack than there are edges, never leaves the range, and finds exactly the nodes
that no walk reaches (`unreachable_exact`).
-/

namespace TreeCorpus

namespace Traversal

/-! ## The search -/

/-- Takes one node off the stack; its last unmarked child comes to the top. There is no outcome on an
empty stack, or when a position without a mark or without a node is looked up. -/
def pop? (g : Graph) (t : Traversal) : Option Traversal :=
  match t.stack with
  | [] => none
  | i :: rest => do
    if ← t.visited[i]? then return { t with stack := rest }
    let visited := t.visited.setIfInBounds i true
    let n ← g.nodes[i]?
    let unmarked ← n.children.toList.filterM fun c => (visited[c]?).map (!·)
    return ⟨visited, unmarked.reverse ++ rest, t.order.push i⟩

/-- Takes `n` nodes off the stack. -/
def pops? (g : Graph) : Nat → Traversal → Option Traversal
  | 0, t => some t
  | n + 1, t => (t.pop? g).bind (pops? g n)

/-- The names of the positions that are not marked, in order, if each has a node. -/
def lost? (g : Graph) (t : Traversal) : Option (List String) :=
  ((List.range t.visited.size).filter t.isNew).mapM g.idAt

variable {g : Graph} {root i : Nat} {t : Traversal} {rest s : List Nat}

/-! ## Lookups within range -/

section

variable {α β : Type} {l : List α}

theorem filterM_eq_some {p : α → Option Bool} {q : α → Bool} (h : ∀ a ∈ l, p a = some (q a)) :
    l.filterM p = some (l.filter q) := by
  have haux : ∀ acc, l.filterAuxM p acc = some ((l.filter q).reverse ++ acc) := by
    induction l with
    | nil => exact fun acc => rfl
    | cons a l ih =>
      intro acc
      have ih := ih fun b hb => h b (List.mem_cons_of_mem a hb)
      unfold List.filterAuxM
      rw [h a List.mem_cons_self]
      cases hq : q a <;> simp [hq, ih]
  unfold List.filterM
  rw [haux]
  simp

theorem mapM_eq_some_filterMap {f : α → Option β} (h : ∀ a ∈ l, ∃ b, f a = some b) :
    l.mapM f = some (l.filterMap f) := by
  induction l with
  | nil => rfl
  | cons a l ih =>
    obtain ⟨b, hb⟩ := h a List.mem_cons_self
    rw [List.mapM_cons, ih fun a' ha' => h a' (List.mem_cons_of_mem a ha'),
      List.filterMap_cons_some hb, hb]
    rfl

end

/-- Within the marks a position is new if its mark is off. -/
theorem getElem?_visited_eq (hi : i < t.visited.size) :
    t.visited[i]? = some (!t.isNew i) := by
  unfold isNew
  rw [Array.getElem?_eq_getElem hi]
  cases t.visited[i] <;> rfl

theorem size_visited_step : (t.step g).visited.size = t.visited.size := by
  rcases hs : t.stack with _ | ⟨i, rest⟩
  · rw [step, hs]
  · by_cases hi : t.isNew i = true
    · rw [step_of_isNew hs hi]
      exact Array.size_setIfInBounds
    · rw [step_of_not_isNew hs hi]

/-! ## The order of the stack -/

theorem Explores.of_perm (h : Explores g root t) (hp : s.Perm t.stack) :
    Explores g root { t with stack := s } where
  isNew_iff := h.isNew_iff
  nodup := h.nodup
  reached hi := h.reached (hi.imp_right hp.mem_iff.1)
  pending hi := h.pending (hp.mem_iff.1 hi)
  root_mem := h.root_mem.imp_right hp.mem_iff.2
  closed hu he := (h.closed hu he).imp_right hp.mem_iff.2
  parent_first := h.parent_first

theorem work_of_perm (hp : s.Perm t.stack) : work g { t with stack := s } = work g t :=
  congrArg (· + _) hp.length_eq

/-! ## One turn -/

theorem pop?_of_marked (hs : t.stack = i :: rest) (hi : t.visited[i]? = some true) :
    t.pop? g = some { t with stack := rest } := by
  unfold pop?
  rw [hs]
  simp [hi]

theorem pop?_of_unmarked {n : Node} (hs : t.stack = i :: rest) (hi : t.visited[i]? = some false)
    (hn : g.nodes[i]? = some n) (hfilter : n.children.toList.filterM
      (fun c => ((t.visit i rest).visited[c]?).map (!·)) = some s) :
    t.pop? g = some { t.visit i rest with stack := s.reverse ++ rest } := by
  unfold visit at hfilter
  unfold pop?
  rw [hs]
  simp [hi, hn, hfilter, visit]

/-- Within range a turn of the search is a step of the traversal, but for the order of the stack. -/
theorem Explores.exists_pop? (h : Explores g root t) (hl : g.Joined) (hr : root < g.nodes.size)
    (hsize : t.visited.size = g.nodes.size) (hs : t.stack ≠ []) :
    ∃ s, s.Perm (t.step g).stack ∧ t.pop? g = some { t.step g with stack := s } := by
  obtain ⟨i, rest, hs⟩ := List.exists_cons_of_ne_nil hs
  have hi : i < g.nodes.size := h.lt_size hl hr (hs ▸ List.mem_cons_self)
  have hmark := getElem?_visited_eq (hsize.symm ▸ hi)
  by_cases hnew : t.isNew i = true
  · have hnode : g.nodes[i]? = some g.nodes[i] := Array.getElem?_eq_getElem hi
    have hfilter : g.nodes[i].children.toList.filterM
        (fun c => ((t.visit i rest).visited[c]?).map (!·)) =
          some ((g.childrenAt i).toList.filter (t.visit i rest).isNew) := by
      rw [hl.childrenAt_eq, ← hl.children_eq hnode]
      refine filterM_eq_some fun c hc => ?_
      rw [hl.children_eq hnode, Graph.mem_targets_iff] at hc
      have hlt : c < (t.visit i rest).visited.size := by
        rw [Traversal.visit, Array.size_setIfInBounds, hsize]
        exact (hl.inRange hc).2
      rw [getElem?_visited_eq hlt, Option.map_some, Bool.not_not]
    rw [hnew] at hmark
    rw [step_of_isNew hs hnew, pop?_of_unmarked hs hmark hnode hfilter]
    exact ⟨_, (List.reverse_perm _).append_right rest, rfl⟩
  · rw [Bool.eq_false_of_not_eq_true hnew] at hmark
    rw [step_of_not_isNew hs hnew, pop?_of_marked hs hmark]
    exact ⟨rest, .refl rest, rfl⟩

/-! ## The whole search -/

/-- A search ends, within the work that is left, in a finished traversal. -/
theorem Explores.exists_pops? (h : Explores g root t) (hl : g.Joined) (hr : root < g.nodes.size)
    (hsize : t.visited.size = g.nodes.size) :
    ∃ n ≤ work g t, ∃ t', pops? g n t = some t' ∧ t'.stack = [] ∧ Explores g root t' ∧
      t'.visited.size = g.nodes.size := by
  induction hw : work g t using Nat.strongRecOn generalizing t with
  | ind w ih =>
    by_cases hs : t.stack = []
    · exact ⟨0, Nat.zero_le _, t, rfl, hs, h, hsize⟩
    · obtain ⟨s, hperm, hpop⟩ := h.exists_pop? hl hr hsize hs
      have hlt := work_step_lt hl h hs
      have hwork := work_of_perm (g := g) hperm
      obtain ⟨n, hn, t', hpops, hdone⟩ := ih _ (by omega) ((h.step hl hr).of_perm hperm)
        (size_visited_step.trans hsize) rfl
      refine ⟨n + 1, by omega, t', ?_, hdone⟩
      rw [pops?, hpop]
      exact hpops

/-- The names that a finished search gives. -/
theorem Explores.lost?_eq (h : Explores g root t) (hsize : t.visited.size = g.nodes.size) :
    t.lost? g = some (g.idsAt ((List.range g.nodes.size).filter t.isNew)) := by
  unfold lost?
  rw [hsize]
  refine mapM_eq_some_filterMap fun i hi => ?_
  have hlt := (h.isNew_iff.1 (List.mem_filter.1 hi).2).1
  rw [Graph.idAt, Array.getElem?_eq_getElem hlt]
  exact ⟨_, rfl⟩

end Traversal

namespace Graph

open Traversal

variable {g : Graph} {root i : Nat}

/-- In a graph whose edges stay within the nodes, whatever cycles, shared children and repeated edges
it has, the search from any node comes to an empty stack within one turn more than there are edges,
with every position in range. It gives the names of the nodes that no walk from there reaches, in
node order, as the traversal does. -/
theorem unreachable_exact (hg : g.Joined) (hr : root < g.nodes.size) :
    (∃ n ≤ g.edges.size + 1, ∃ t, pops? g n (start g root) = some t ∧ t.stack = [] ∧
      t.lost? g = some (g.idsAt (g.unreachable root))) ∧
    (g.traverse root).stack = [] ∧
    g.ListsNames (fun i => ¬ g.Reaches root i) (g.idsAt (g.unreachable root)) := by
  have hnames := listsNames_unreachable hg hr
  obtain ⟨n, hn, t, hpops, hdone, hexplores, hsize⟩ :=
    (explores_start g root).exists_pops? hg hr Array.size_replicate
  refine ⟨⟨n, hn.trans (work_start_le hg root), t, hpops, hdone, ?_⟩, stack_traverse hg hr, hnames⟩
  rw [hexplores.lost?_eq hsize, (listsNames_of_explores hexplores hdone).unique hnames]

/-- An edge and its way back, one child of both, the edge once more, and a node with an edge to
itself. -/
def tangle : Graph := ofPairs
  [("a", "b"), ("a", "b"), ("b", "a"), ("a", "c"), ("b", "c"), ("d", "c"), ("d", "d")]

theorem joined_tangle : tangle.Joined := (built_ofPairs _).linked.joined

theorem ids_tangle : tangle.ids = ["a", "b", "c", "d"] := by
  unfold tangle
  rw [ids_ofPairs]
  decide

theorem toList_edges_tangle : tangle.edges.toList =
    [(0, 1), (0, 1), (1, 0), (0, 2), (1, 2), (3, 2), (3, 3)] := by
  rw [tangle, (built_ofPairs _).linked.toList_edges_eq, ← tangle, ids_tangle, tangle,
    edgeIds_ofPairs]
  decide

theorem reaches_tangle_iff : tangle.Reaches 0 i ↔ i ≤ 2 := by
  have hedge {u v : Nat} : tangle.HasEdge u v ↔
      (u, v) ∈ [(0, 1), (0, 1), (1, 0), (0, 2), (1, 2), (3, 2), (3, 3)] := by
    rw [HasEdge, toList_edges_tangle]
  constructor
  · intro h
    induction h with
    | refl => exact Nat.zero_le 2
    | tail _ he ih =>
      exact (by decide : ∀ e ∈ [(0, 1), (0, 1), (1, 0), (0, 2), (1, 2), (3, 2), (3, 3)],
        e.1 ≤ 2 → e.2 ≤ 2) _ (hedge.1 he) ih
  · intro h
    obtain rfl | rfl | rfl : i = 0 ∨ i = 1 ∨ i = 2 := by omega
    · exact .refl
    · exact .single (hedge.2 (by decide))
    · exact .single (hedge.2 (by decide))

/-- Only the node with an edge to itself is not reached. -/
theorem unreachable_exact_tangle : tangle.Joined ∧ 0 < tangle.nodes.size ∧
    ∃ n ≤ 8, ∃ t, pops? tangle n (start tangle 0) = some t ∧ t.stack = [] ∧
      t.lost? tangle = some ["d"] := by
  have hsize : tangle.nodes.size = 4 := by
    rw [← length_ids, ids_tangle]
    rfl
  have hedges : tangle.edges.size = 7 := by
    rw [← Array.length_toList, toList_edges_tangle]
    rfl
  have hd : tangle.ListsNames (fun i => ¬ tangle.Reaches 0 i) ["d"] := by
    refine ⟨by rw [ids_tangle]; decide, fun {i id} hi => ?_⟩
    have hlt : i < 4 := hsize ▸ lt_size_of_getElem?_ids hi
    rw [ids_tangle] at hi
    rw [reaches_tangle_iff]
    exact (by decide : ∀ i < 4, ∀ id ∈ ["a", "b", "c", "d"][i]?, id ∈ ["d"] ↔ ¬ i ≤ 2) i hlt id hi
  have hpos : 0 < tangle.nodes.size := by omega
  obtain ⟨⟨n, hn, t, hpops, hdone, hlost⟩, -, hnames⟩ := unreachable_exact joined_tangle hpos
  exact ⟨joined_tangle, hpos, n, by omega, t, hpops, hdone, hd.unique hnames ▸ hlost⟩

end Graph

end TreeCorpus
