import Mathlib.Algebra.Order.BigOperators.Group.Finset
import TreeCorpus.Graph.Traversal
import TreeCorpus.Proofs.Graph.Walk

/-!
# What a traversal visits

Every step of a traversal keeps its bookkeeping right (`Explores`): a node on the stack or visited
is reached, and the edges out of visited nodes lead to nodes on the stack or visited. A step also
spends work that one pop for each edge and one for the start pay for, so a finished traversal has
an empty stack. It has then visited exactly the nodes that are reached, each once and a parent
before its children (`mem_visitOrder_iff`, `nodup_visitOrder`, `eq_root_or_of_visitOrder_eq`).
-/

namespace TreeCorpus

namespace Traversal

variable {g : Graph} {root i j : Nat} {t : Traversal} {rest : List Nat}

/-! ## One step -/

/-- The traversal after marking a node, with the rest of the stack. -/
def visit (t : Traversal) (i : Nat) (rest : List Nat) : Traversal :=
  ⟨t.visited.setIfInBounds i true, rest, t.order.push i⟩

theorem step_of_not_isNew (hs : t.stack = i :: rest) (h : ¬ t.isNew i = true) :
    t.step g = { t with stack := rest } := by
  unfold step
  rw [hs]
  exact if_neg h

theorem step_of_isNew (hs : t.stack = i :: rest) (h : t.isNew i = true) :
    t.step g = { t.visit i rest with
      stack := (g.childrenAt i).toList.filter (t.visit i rest).isNew ++ rest } := by
  unfold step
  rw [hs]
  exact if_pos h

theorem isNew_visit_iff : (t.visit i rest).isNew j = true ↔ t.isNew j = true ∧ j ≠ i := by
  unfold isNew visit
  rw [beq_iff_eq, beq_iff_eq, Array.getElem?_setIfInBounds]
  by_cases h : i = j
  · subst h
    by_cases hi : i < t.visited.size <;> simp [hi]
  · simp [h, Ne.symm h]

/-- The bookkeeping of a traversal from `root`. -/
structure Explores (g : Graph) (root : Nat) (t : Traversal) : Prop where
  isNew_iff : ∀ {i}, t.isNew i = true ↔ i < g.nodes.size ∧ i ∉ t.order.toList
  nodup : t.order.toList.Nodup
  reached : ∀ {i}, i ∈ t.order.toList ∨ i ∈ t.stack → g.Reaches root i
  pending : ∀ {i}, i ∈ t.stack → i = root ∨ ∃ u ∈ t.order.toList, g.HasEdge u i
  root_mem : root ∈ t.order.toList ∨ root ∈ t.stack
  closed : ∀ {u v}, u ∈ t.order.toList → g.HasEdge u v → v ∈ t.order.toList ∨ v ∈ t.stack
  parent_first : ∀ {done i later}, t.order.toList = done ++ i :: later →
    i = root ∨ ∃ u ∈ done, g.HasEdge u i

theorem explores_start (g : Graph) (root : Nat) : Explores g root (start g root) where
  isNew_iff {i} := by
    by_cases h : i < g.nodes.size <;> simp [start, isNew, h]
  nodup := List.nodup_nil
  reached h := by
    obtain rfl := List.mem_singleton.1 (h.resolve_left List.not_mem_nil)
    exact .refl
  pending h := Or.inl (List.mem_singleton.1 h)
  root_mem := Or.inr (List.mem_singleton_self root)
  closed h := absurd h List.not_mem_nil
  parent_first h := absurd h (by simp [start])

namespace Explores

theorem lt_size (h : Explores g root t) (hl : g.Joined) (hr : root < g.nodes.size)
    (hi : i ∈ t.stack) : i < g.nodes.size := by
  rcases h.pending hi with rfl | ⟨u, -, hu⟩
  · exact hr
  · exact (hl.inRange hu).2

/-- A node that was visited before only leaves the stack. -/
theorem drop (h : Explores g root t) (hl : g.Joined) (hr : root < g.nodes.size)
    (hs : t.stack = i :: rest) (hi : ¬ t.isNew i = true) :
    Explores g root { t with stack := rest } := by
  have hsub {j : Nat} (hj : j ∈ rest) : j ∈ t.stack := hs ▸ List.mem_cons_of_mem i hj
  have hlt : i < g.nodes.size := h.lt_size hl hr (hs ▸ List.mem_cons_self)
  have hmem : i ∈ t.order.toList := not_not.1 fun hn => hi (h.isNew_iff.2 ⟨hlt, hn⟩)
  have hkeep {j : Nat} (hj : j ∈ t.order.toList ∨ j ∈ t.stack) : j ∈ t.order.toList ∨ j ∈ rest := by
    rw [hs, List.mem_cons] at hj
    rcases hj with hj | rfl | hj
    · exact Or.inl hj
    · exact Or.inl hmem
    · exact Or.inr hj
  exact ⟨h.isNew_iff, h.nodup, fun hj => h.reached (hj.imp_right hsub),
    fun hj => h.pending (hsub hj), hkeep h.root_mem, fun hu he => hkeep (h.closed hu he),
    h.parent_first⟩

/-- A node that was not visited yet is marked, and its unvisited children are pending. -/
theorem visit (h : Explores g root t) (hl : g.Joined) (hs : t.stack = i :: rest)
    (hi : t.isNew i = true) :
    Explores g root { t.visit i rest with
      stack := (g.childrenAt i).toList.filter (t.visit i rest).isNew ++ rest } := by
  have horder : (t.visit i rest).order.toList = t.order.toList ++ [i] := Array.toList_push
  have hmem {j : Nat} : j ∈ (t.visit i rest).order.toList ↔ j ∈ t.order.toList ∨ j = i := by
    rw [horder, List.mem_append, List.mem_singleton]
  have hnew {j : Nat} : (t.visit i rest).isNew j = true ↔
      j < g.nodes.size ∧ j ∉ (t.visit i rest).order.toList := by
    rw [isNew_visit_iff, h.isNew_iff, hmem, not_or, and_assoc]
  have hstack {j : Nat} : j ∈ (g.childrenAt i).toList.filter (t.visit i rest).isNew ++ rest ↔
      (g.HasEdge i j ∧ j ∉ (t.visit i rest).order.toList) ∨ j ∈ rest := by
    rw [List.mem_append, List.mem_filter, hl.childrenAt_eq, Graph.mem_targets_iff, hnew]
    exact or_congr_left (and_congr_right fun he => and_iff_right (hl.inRange he).2)
  have hkeep {j : Nat} (hj : j ∈ t.order.toList ∨ j ∈ t.stack) :
      j ∈ (t.visit i rest).order.toList ∨
        j ∈ (g.childrenAt i).toList.filter (t.visit i rest).isNew ++ rest := by
    rw [hs, List.mem_cons] at hj
    rcases hj with hj | hj | hj
    · exact Or.inl (hmem.2 (Or.inl hj))
    · exact Or.inl (hmem.2 (Or.inr hj))
    · exact Or.inr (hstack.2 (Or.inr hj))
  have hreach : g.Reaches root i := h.reached (Or.inr (hs ▸ List.mem_cons_self))
  refine ⟨hnew, ?_, ?_, ?_, hkeep h.root_mem, ?_, ?_⟩
  · show (t.visit i rest).order.toList.Nodup
    rw [horder]
    exact List.nodup_append.2 ⟨h.nodup, List.nodup_singleton i, fun a ha b hb e =>
      (h.isNew_iff.1 hi).2 (List.mem_singleton.1 hb ▸ e ▸ ha)⟩
  · rintro j (hj | hj)
    · rcases hmem.1 hj with hj | rfl
      · exact h.reached (Or.inl hj)
      · exact hreach
    · rcases hstack.1 hj with ⟨he, -⟩ | hj
      · exact hreach.tail he
      · exact h.reached (Or.inr (hs ▸ List.mem_cons_of_mem i hj))
  · intro j hj
    rcases hstack.1 hj with ⟨he, -⟩ | hj
    · exact Or.inr ⟨i, hmem.2 (Or.inr rfl), he⟩
    · rcases h.pending (hs ▸ List.mem_cons_of_mem i hj) with rfl | ⟨u, hu, he⟩
      · exact Or.inl rfl
      · exact Or.inr ⟨u, hmem.2 (Or.inl hu), he⟩
  · intro u v hu he
    rcases hmem.1 hu with hu | rfl
    · exact hkeep (h.closed hu he)
    · by_cases hv : v ∈ (t.visit u rest).order.toList
      · exact Or.inl hv
      · exact Or.inr (hstack.2 (Or.inl ⟨he, hv⟩))
  · intro done j later e
    -- the last of the visited nodes is the one that was on the stack
    have e' : t.order.toList ++ [i] = done ++ j :: later := horder.symm.trans e
    rcases List.eq_nil_or_concat later with rfl | ⟨later', k, rfl⟩
    · obtain ⟨rfl, hj⟩ := List.append_inj' e' rfl
      obtain rfl : i = j := (List.cons.inj hj).1
      exact h.pending (hs ▸ List.mem_cons_self)
    · rw [List.concat_eq_append, ← List.cons_append, ← List.append_assoc] at e'
      obtain ⟨hinit, -⟩ := List.append_inj' e' rfl
      exact h.parent_first hinit

theorem step (h : Explores g root t) (hl : g.Joined) (hr : root < g.nodes.size) :
    Explores g root (t.step g) := by
  rcases hs : t.stack with _ | ⟨i, rest⟩
  · rw [Traversal.step, hs]
    exact h
  · by_cases hi : t.isNew i = true
    · rw [step_of_isNew hs hi]
      exact h.visit hl hs hi
    · rw [step_of_not_isNew hs hi]
      exact h.drop hl hr hs hi

theorem run (h : Explores g root t) (hl : g.Joined) (hr : root < g.nodes.size) (n : Nat) :
    Explores g root (Traversal.run g n t) := by
  induction n generalizing t with
  | zero => exact h
  | succ n ih =>
    rw [Traversal.run]
    split
    · exact h
    · exact ih (h.step hl hr)

/-- With an empty stack exactly the nodes that are reached were visited. -/
theorem mem_order_iff (h : Explores g root t) (hs : t.stack = []) :
    i ∈ t.order.toList ↔ g.Reaches root i := by
  have hdone {j : Nat} (hj : j ∈ t.order.toList ∨ j ∈ t.stack) : j ∈ t.order.toList := by
    rw [hs] at hj
    exact hj.resolve_right List.not_mem_nil
  constructor
  · exact fun hi => h.reached (Or.inl hi)
  · intro hi
    induction hi with
    | refl => exact hdone h.root_mem
    | tail _ he ih => exact hdone (h.closed ih he)

theorem isNew_iff_not_reaches (h : Explores g root t) (hs : t.stack = []) :
    t.isNew i = true ↔ i < g.nodes.size ∧ ¬ g.Reaches root i := by
  rw [h.isNew_iff, h.mem_order_iff hs]

end Explores

/-! ## How long it takes -/

/-- How often a node can still be taken off the stack. -/
def work (g : Graph) (t : Traversal) : Nat :=
  t.stack.length +
    ∑ i ∈ (Finset.range g.nodes.size).filter (t.isNew · = true), (g.targets i).length

theorem work_start_le (hl : g.Joined) (root : Nat) : work g (start g root) ≤ g.edges.size + 1 := by
  have hsub : ∑ i ∈ (Finset.range g.nodes.size).filter ((start g root).isNew · = true),
      (g.targets i).length ≤ ∑ i ∈ Finset.range g.nodes.size, (g.targets i).length :=
    Finset.sum_le_sum_of_subset (Finset.filter_subset _ _)
  rw [hl.sum_length_targets] at hsub
  have hlen : (start g root).stack.length = 1 := rfl
  unfold work
  rw [hlen]
  omega

/-- A step takes one node off the stack and pays for the ones that it puts there. -/
theorem work_step_lt (hl : g.Joined) (h : Explores g root t) (hs : t.stack ≠ []) :
    work g (t.step g) < work g t := by
  obtain ⟨i, rest, hs⟩ := List.exists_cons_of_ne_nil hs
  by_cases hi : t.isNew i = true
  · rw [step_of_isNew hs hi]
    have hmem : i ∈ (Finset.range g.nodes.size).filter (t.isNew · = true) :=
      Finset.mem_filter.2 ⟨Finset.mem_range.2 (h.isNew_iff.1 hi).1, hi⟩
    have herase : (Finset.range g.nodes.size).filter ((t.visit i rest).isNew · = true) =
        ((Finset.range g.nodes.size).filter (t.isNew · = true)).erase i := by
      ext j
      simp only [Finset.mem_filter, Finset.mem_erase, isNew_visit_iff]
      tauto
    have hsum := Finset.add_sum_erase _ (fun j => (g.targets j).length) hmem
    have hlen := List.length_filter_le (t.visit i rest).isNew (g.childrenAt i).toList
    rw [hl.childrenAt_eq] at hlen
    show ((g.childrenAt i).toList.filter (t.visit i rest).isNew ++ rest).length +
      ∑ j ∈ (Finset.range g.nodes.size).filter ((t.visit i rest).isNew · = true),
        (g.targets j).length < _
    rw [herase, work, hs, List.length_append, List.length_cons, hl.childrenAt_eq, ← hsum]
    omega
  · rw [step_of_not_isNew hs hi, work, work, hs, List.length_cons]
    show rest.length + _ < rest.length + 1 + _
    exact Nat.add_lt_add_right (Nat.lt_succ_self _) _

theorem stack_run_eq_nil (hl : g.Joined) (hr : root < g.nodes.size) (h : Explores g root t) {n : Nat}
    (hn : work g t ≤ n) : (run g n t).stack = [] := by
  induction n generalizing t with
  | zero =>
    have hlen : t.stack.length = 0 := by
      unfold work at hn
      omega
    exact List.length_eq_zero_iff.1 hlen
  | succ n ih =>
    unfold run
    split
    · assumption
    · rename_i hs
      have hlt := work_step_lt hl h (by rw [hs]; exact List.cons_ne_nil _ _)
      exact ih (h.step hl hr) (by omega)

end Traversal

namespace Graph

variable {g : Graph} {root i : Nat}

open Traversal

/-! ## The finished traversal -/

theorem explores_traverse (hl : g.Joined) (hr : root < g.nodes.size) :
    Explores g root (g.traverse root) := (explores_start g root).run hl hr _

theorem stack_traverse (hl : g.Joined) (hr : root < g.nodes.size) :
    (g.traverse root).stack = [] :=
  stack_run_eq_nil hl hr (explores_start g root) (work_start_le hl root)

/-- A traversal visits exactly the nodes that are reached. -/
theorem mem_visitOrder_iff (hl : g.Joined) (hr : root < g.nodes.size) :
    i ∈ g.visitOrder root ↔ g.Reaches root i :=
  (explores_traverse hl hr).mem_order_iff (stack_traverse hl hr)

theorem nodup_visitOrder (hl : g.Joined) (hr : root < g.nodes.size) :
    (g.visitOrder root).Nodup := (explores_traverse hl hr).nodup

theorem not_mem_of_visitOrder_eq (hl : g.Joined) (hr : root < g.nodes.size) {done later : List Nat}
    (h : g.visitOrder root = done ++ i :: later) : i ∉ done := by
  intro hi
  have hn := nodup_visitOrder hl hr
  rw [h, List.nodup_append] at hn
  exact hn.2.2 i hi i List.mem_cons_self rfl

/-- A parent of every visited node but the root was visited before it. -/
theorem eq_root_or_of_visitOrder_eq (hl : g.Joined) (hr : root < g.nodes.size)
    {done later : List Nat} (h : g.visitOrder root = done ++ i :: later) :
    i = root ∨ ∃ u ∈ done, g.HasEdge u i := (explores_traverse hl hr).parent_first h

theorem mem_unreachable_iff (hl : g.Joined) (hr : root < g.nodes.size) :
    i ∈ g.unreachable root ↔ i < g.nodes.size ∧ ¬ g.Reaches root i := by
  rw [unreachable, List.mem_filter, List.mem_range,
    (explores_traverse hl hr).isNew_iff_not_reaches (stack_traverse hl hr)]
  exact ⟨fun h => h.2, fun h => ⟨h.1, h⟩⟩

end Graph

end TreeCorpus
