import TreeCorpus.Proofs.Graph.Placement

/-!
# Going down a tree without marks

A descent takes one node off a stack at a time and puts all its children there, each with a state
made from the state of its parent. Nothing tells it which nodes it has met, so on a cycle it goes on
for ever. In a tree every node has one parent and thus enters the stack once. After as many steps as
there are nodes the stack is empty, and every node was taken once, with its own state
(`finishes_of_tree`).
-/

namespace TreeCorpus

/-- The nodes that were taken, in this order, and those that wait, each with its state. -/
structure Descent (σ : Type) where
  stack : List (Nat × σ)
  taken : List (Nat × σ)

namespace Descent

variable {σ : Type}

/-- Nothing taken, and the root waiting. -/
def start (root : Nat) (s : σ) : Descent σ := ⟨[(root, s)], []⟩

/-- The children of a node with their states: `next s n k` is that of child number `k` of `n`. -/
def below (g : Graph) (next : σ → Nat → Nat → σ) (e : Nat × σ) : List (Nat × σ) :=
  let cs := (g.childrenAt e.1).toList
  cs.zipIdx.map fun c => (c.1, next e.2 cs.length c.2)

/-- Takes one node; its last child comes to the top of the stack. -/
def step (g : Graph) (next : σ → Nat → Nat → σ) (t : Descent σ) : Descent σ :=
  match t.stack with
  | [] => t
  | e :: rest => ⟨(below g next e).reverse ++ rest, t.taken ++ [e]⟩

/-- Takes `n` steps. -/
def run (g : Graph) (next : σ → Nat → Nat → σ) : Nat → Descent σ → Descent σ
  | 0, t => t
  | n + 1, t => run g next n (t.step g next)

/-- The nodes that were met: those taken and those that wait. -/
def met (t : Descent σ) : List (Nat × σ) := t.taken ++ t.stack

variable {g : Graph} {next : σ → Nat → Nat → σ} {root v : Nat} {s : σ} {f : Nat → σ}
  {t : Descent σ} {e : Nat × σ} {rest : List (Nat × σ)}

/-- The state of each node is made from that of its parent, down from the root. -/
structure Inherits (g : Graph) (next : σ → Nat → Nat → σ) (root : Nat) (s : σ) (f : Nat → σ) :
    Prop where
  root_eq : f root = s
  child_eq : ∀ {u k c}, (g.targets u)[k]? = some c → f c = next (f u) (g.targets u).length k

/-! ## One step -/

theorem step_of_cons (hs : t.stack = e :: rest) :
    t.step g next = ⟨(below g next e).reverse ++ rest, t.taken ++ [e]⟩ := by
  unfold step
  rw [hs]

theorem map_fst_below (hl : g.Linked) : (below g next e).map Prod.fst = g.targets e.1 := by
  unfold below
  rw [List.map_map, ← hl.joined.childrenAt_eq]
  exact List.zipIdx_map_fst ..

/-- Besides the nodes met before, a step meets the children of the node that it takes. -/
theorem met_step_perm (hs : t.stack = e :: rest) :
    (t.step g next).met.Perm (t.met ++ below g next e) := by
  have hmet : t.met = t.taken ++ [e] ++ rest := by
    rw [met, hs, List.append_cons]
  rw [step_of_cons hs, hmet, List.append_assoc (t.taken ++ [e])]
  exact List.Perm.append_left _
    (((List.reverse_perm _).append_right _).trans List.perm_append_comm)

/-! ## The bookkeeping -/

/-- Every node met has its own state and was met once, the children of those taken among them, and
all but the root as the child of a node that was taken. -/
structure Covers (g : Graph) (root : Nat) (f : Nat → σ) (t : Descent σ) : Prop where
  state_eq : ∀ e ∈ t.met, e.2 = f e.1
  nodup : (t.met.map Prod.fst).Nodup
  root_mem : root ∈ t.met.map Prod.fst
  parent_taken : ∀ v ∈ t.met.map Prod.fst, v = root ∨ ∃ u ∈ t.taken.map Prod.fst, g.HasEdge u v
  closed : ∀ u ∈ t.taken.map Prod.fst, ∀ v, g.HasEdge u v → v ∈ t.met.map Prod.fst

theorem covers_start (h : Inherits g next root s f) : Covers g root f (start root s) where
  state_eq e he := by
    obtain rfl := List.mem_singleton.1 he
    exact h.root_eq.symm
  nodup := List.nodup_singleton root
  root_mem := List.mem_singleton_self root
  parent_taken v hv := Or.inl (List.mem_singleton.1 hv)
  closed u hu := absurd hu List.not_mem_nil

namespace Covers

theorem lt_size (hc : Covers g root f t) (hr : g.RootedAt root) (hl : g.Linked)
    (hv : v ∈ t.met.map Prod.fst) : v < g.nodes.size := by
  rcases hc.parent_taken v hv with rfl | ⟨u, -, hu⟩
  · exact hr.lt_size
  · exact (hl.inRange hu).2

/-- The children of a node that waits were not met before. -/
theorem not_mem_of_hasEdge (hc : Covers g root f t) (hr : g.RootedAt root) (hl : g.Linked)
    (hs : t.stack = e :: rest) (he : g.HasEdge e.1 v) : v ∉ t.met.map Prod.fst := by
  intro hv
  have hnodup := hc.nodup
  rw [met, hs, List.map_append, List.nodup_append] at hnodup
  rcases hc.parent_taken v hv with rfl | ⟨u, hu, huv⟩
  · exact hr.not_hasEdge_root he
  · have hue : u = e.1 := hr.parent_unique hl huv he
    exact hnodup.2.2 u hu e.1 (List.mem_map_of_mem List.mem_cons_self) hue

theorem step (hc : Covers g root f t) (hr : g.RootedAt root) (hl : g.Linked)
    (hf : Inherits g next root s f) : Covers g root f (t.step g next) := by
  rcases hs : t.stack with _ | ⟨e, rest⟩
  · rw [Descent.step, hs]
    exact hc
  have hperm : (t.step g next).met.Perm (t.met ++ below g next e) := met_step_perm hs
  have hfst := hperm.map Prod.fst
  rw [List.map_append, map_fst_below hl] at hfst
  have hmem {v : Nat} : v ∈ (t.step g next).met.map Prod.fst ↔
      v ∈ t.met.map Prod.fst ∨ g.HasEdge e.1 v := by
    rw [hfst.mem_iff, List.mem_append, Graph.mem_targets_iff]
  have htaken {u : Nat} : u ∈ (t.step g next).taken.map Prod.fst ↔
      u ∈ t.taken.map Prod.fst ∨ u = e.1 := by
    rw [step_of_cons hs, List.map_append, List.mem_append]
    exact or_congr_right List.mem_singleton
  have he : e ∈ t.met := by
    rw [met, hs]
    exact List.mem_append_right _ List.mem_cons_self
  refine ⟨fun x hx => ?_, ?_, hmem.2 (Or.inl hc.root_mem), fun v hv => ?_, fun u hu v huv => ?_⟩
  · rcases List.mem_append.1 (hperm.mem_iff.1 hx) with hx | hx
    · exact hc.state_eq x hx
    · obtain ⟨⟨c, k⟩, hck, rfl⟩ := List.mem_map.1 hx
      rw [hl.joined.childrenAt_eq] at hck ⊢
      rw [hc.state_eq e he]
      exact (hf.child_eq (List.mk_mem_zipIdx_iff_getElem?.1 hck)).symm
  · rw [hfst.nodup_iff, List.nodup_append]
    refine ⟨hc.nodup, hr.nodup_targets hl e.1, fun v hv w hw hvw => ?_⟩
    subst hvw
    exact hc.not_mem_of_hasEdge hr hl hs (Graph.mem_targets_iff.1 hw) hv
  · rcases hmem.1 hv with hv | hv
    · rcases hc.parent_taken v hv with rfl | ⟨u, hu, huv⟩
      · exact Or.inl rfl
      · exact Or.inr ⟨u, htaken.2 (Or.inl hu), huv⟩
    · exact Or.inr ⟨e.1, htaken.2 (Or.inr rfl), hv⟩
  · rcases htaken.1 hu with hu | rfl
    · exact hmem.2 (Or.inl (hc.closed u hu v huv))
    · exact hmem.2 (Or.inr huv)

theorem run (hc : Covers g root f t) (hr : g.RootedAt root) (hl : g.Linked)
    (hf : Inherits g next root s f) (n : Nat) : Covers g root f (Descent.run g next n t) := by
  induction n generalizing t with
  | zero => exact hc
  | succ n ih => exact ih (hc.step hr hl hf)

theorem length_met_le (hc : Covers g root f t) (hr : g.RootedAt root) (hl : g.Linked) :
    t.met.length ≤ g.nodes.size := by
  have hsub : t.met.map Prod.fst ⊆ List.range g.nodes.size := fun v hv =>
    List.mem_range.2 (hc.lt_size hr hl hv)
  have hle := (hc.nodup.subperm hsub).length_le
  rwa [List.length_map, List.length_range] at hle

/-- When no node waits any more, every node was taken. -/
theorem taken_perm (hc : Covers g root f t) (hr : g.RootedAt root) (hl : g.Linked)
    (hs : t.stack = []) : (t.taken.map Prod.fst).Perm (List.range g.nodes.size) := by
  have hmet : t.met = t.taken := by rw [met, hs, List.append_nil]
  have hreach {v : Nat} (hv : g.Reaches root v) : v ∈ t.taken.map Prod.fst := by
    induction hv with
    | refl => exact hmet ▸ hc.root_mem
    | tail _ he ih => exact hmet ▸ hc.closed _ ih _ he
  refine (List.perm_ext_iff_of_nodup (hmet ▸ hc.nodup) List.nodup_range).2 fun v => ?_
  rw [List.mem_range]
  exact ⟨fun hv => hc.lt_size hr hl (hmet.symm ▸ hv), fun hv => hreach (hr.reaches v hv)⟩

end Covers

/-! ## How long it takes -/

/-- Every step takes a node until none waits. -/
theorem stack_run_or (g : Graph) (next : σ → Nat → Nat → σ) (n : Nat) (t : Descent σ) :
    (run g next n t).stack = [] ∨ (run g next n t).taken.length = t.taken.length + n := by
  induction n generalizing t with
  | zero => exact Or.inr rfl
  | succ n ih =>
    rcases hs : t.stack with _ | ⟨e, rest⟩
    · have hstep : t.step g next = t := by
        unfold step
        rw [hs]
      have hrun : ∀ m, run g next m t = t := by
        intro m
        induction m with
        | zero => rfl
        | succ m ih => rw [run, hstep, ih]
      rw [hrun]
      exact Or.inl hs
    · rw [run]
      refine (ih (t.step g next)).imp_right fun hlen => ?_
      rw [hlen, step_of_cons hs, List.length_append, List.length_singleton, Nat.add_assoc,
        Nat.add_comm 1 n]

/-- The descent that starts at `root` ends after one step for each node of the graph. It has then
taken every node once, in the state that `f` tells. -/
structure Finishes (g : Graph) (next : σ → Nat → Nat → σ) (root : Nat) (s : σ) (f : Nat → σ) :
    Prop where
  stack_eq : (run g next g.nodes.size (start root s)).stack = []
  taken_perm : ((run g next g.nodes.size (start root s)).taken.map Prod.fst).Perm
    (List.range g.nodes.size)
  state_eq : ∀ e ∈ (run g next g.nodes.size (start root s)).taken, e.2 = f e.1

/-- In a tree a descent takes every node once. -/
theorem finishes_of_tree (hr : g.RootedAt root) (hl : g.Linked) (hf : Inherits g next root s f) :
    Finishes g next root s f := by
  have hc := (covers_start hf).run hr hl hf g.nodes.size
  have hstack : (run g next g.nodes.size (start root s)).stack = [] := by
    rcases stack_run_or g next g.nodes.size (start root s) with hnil | hlen
    · exact hnil
    · -- as many nodes were taken as there are, so none is left to wait
      have hle := hc.length_met_le hr hl
      have hnone : (start root s).taken.length = 0 := rfl
      rw [met, List.length_append] at hle
      exact List.length_eq_zero_iff.1 (by omega)
  refine ⟨hstack, hc.taken_perm hr hl hstack, fun e he => hc.state_eq e ?_⟩
  exact List.mem_append_left _ he

/-- The states that a descent meets are those of the nodes. -/
theorem Finishes.mem_states_iff (h : Finishes g next root s f) {x : σ} :
    x ∈ (run g next g.nodes.size (start root s)).taken.map Prod.snd ↔
      ∃ v < g.nodes.size, f v = x := by
  rw [List.mem_map]
  constructor
  · rintro ⟨e, he, rfl⟩
    have hv := h.taken_perm.mem_iff.1 (List.mem_map_of_mem he)
    exact ⟨e.1, List.mem_range.1 hv, (h.state_eq e he).symm⟩
  · rintro ⟨v, hv, rfl⟩
    obtain ⟨e, he, rfl⟩ := List.mem_map.1 (h.taken_perm.mem_iff.2 (List.mem_range.2 hv))
    exact ⟨e, he, h.state_eq e he⟩

end Descent

end TreeCorpus
