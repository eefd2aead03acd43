import Mathlib.Data.Set.Finite.Basic
import Mathlib.Dynamics.PeriodicPts.Defs
import TreeCorpus.Proofs.Graph.NamedWalks

/-!
# Nodes that the root does not reach

If one node alone has no edge into it and no node has two, a node that the root does not reach has a
parent that it does not reach either. Following parents from there never ends, and as there are only
so many nodes it comes back: every such node is on a cycle or below one. Nothing that the root
reaches is on a cycle, so the nodes that are reported as unreachable are exactly the cycles and what
hangs below them (`unreachable_listsCycles`).
-/

namespace TreeCorpus.Graph

/-! ## Cycles as such -/

section

variable {α : Type} {r : α → α → Prop} {s : Cycle α} {a : α} {f : α → α} {x : α}

theorem chain_reverse : s.reverse.Chain r ↔ s.Chain fun a b => r b a := by
  induction s using Cycle.induction_on with
  | nil => exact Iff.rfl
  | cons a l _ =>
    rw [Cycle.reverse_coe, List.reverse_cons, ← Cycle.coe_cons_eq_coe_append, Cycle.chain_coe_cons,
      Cycle.chain_coe_cons, ← List.isChain_reverse, List.reverse_cons, List.reverse_append,
      List.reverse_reverse]
    rfl

/-- Every element of a cycle has a predecessor there. -/
theorem exists_mem_of_chain (h : s.Chain r) (ha : a ∈ s) : ∃ b ∈ s, r b a := by
  induction s using Quotient.inductionOn' with
  | h l =>
    -- the cycle is turned so that it starts at `a`
    obtain ⟨l₁, l₂, rfl⟩ := List.append_of_mem (show a ∈ l from ha)
    have hrot : ((l₁ ++ a :: l₂ : List α) : Cycle α) = ((a :: (l₂ ++ l₁) : List α) : Cycle α) :=
      Cycle.coe_eq_coe.2 List.isRotated_append
    change ((l₁ ++ a :: l₂ : List α) : Cycle α).Chain r at h
    rw [hrot, Cycle.chain_coe_cons, ← List.cons_append, List.isChain_append] at h
    have hlast := List.getLast?_eq_some_getLast (List.cons_ne_nil a (l₂ ++ l₁))
    refine ⟨_, ?_, h.2.2 _ hlast a rfl⟩
    show _ ∈ ((l₁ ++ a :: l₂ : List α) : Cycle α)
    rw [hrot]
    exact List.getLast_mem _

/-- Iterating a function inside a list ends in a cycle. -/
theorem exists_iterate_mem_periodicPts {l : List α} (h : ∀ n, f^[n] x ∈ l) :
    ∃ n, f^[n] x ∈ Function.periodicPts f := by
  obtain ⟨i, -, j, -, hij, heq⟩ := Set.infinite_univ.exists_ne_map_eq_of_mapsTo
    (fun n _ => h n) l.finite_toSet
  have hreturn {i j : Nat} (hlt : i < j) (heq : f^[i] x = f^[j] x) :
      f^[i] x ∈ Function.periodicPts f := by
    refine Function.mk_mem_periodicPts (Nat.sub_pos_of_lt hlt) ?_
    show f^[j - i] (f^[i] x) = f^[i] x
    rw [← Function.iterate_add_apply, Nat.sub_add_cancel hlt.le, heq]
  rcases Nat.lt_or_gt_of_ne hij with hlt | hgt
  · exact ⟨i, hreturn hlt heq⟩
  · exact ⟨j, hreturn hgt heq.symm⟩

end

variable {g : Graph} {n : Nat} {names : List String} {id a p c : String} {cs : Cycle String}

/-- A cycle of distinct names, each with an edge to the next one. -/
structure IsCycle (g : Graph) (cs : Cycle String) : Prop where
  ne_nil : cs ≠ Cycle.nil
  nodup : cs.Nodup
  chain : cs.Chain fun p c => (p, c) ∈ g.edgeIds

/-! ## Following parents -/

/-- The parent that a name records, or the name itself. -/
def up (g : Graph) (id : String) : String := (g.parent id).getD id

/-- Every listed name records a listed parent. -/
def HoldsParents (g : Graph) (names : List String) : Prop :=
  ∀ id ∈ names, ∃ p ∈ names, g.parent id = some p

namespace HoldsParents

variable (h : g.HoldsParents names)

include h

theorem parent_eq_up (hid : id ∈ names) : g.parent id = some (g.up id) := by
  obtain ⟨p, -, hp⟩ := h id hid
  rw [up, hp, Option.getD_some]

theorem up_mem (hid : id ∈ names) : g.up id ∈ names := by
  obtain ⟨p, hmem, hp⟩ := h id hid
  rwa [up, hp, Option.getD_some]

theorem iterate_mem (hid : id ∈ names) (n : Nat) : g.up^[n] id ∈ names := by
  induction n with
  | zero => exact hid
  | succ n ih =>
    rw [Function.iterate_succ_apply']
    exact h.up_mem ih

/-- There is no end to the parents of a listed name. -/
theorem linksUp_iterate (hid : id ∈ names) (n : Nat) : g.LinksUp (g.up^[n] id) id n := by
  induction n generalizing id with
  | zero => exact .here
  | succ n ih =>
    rw [Function.iterate_succ_apply]
    exact .up (h.parent_eq_up hid) (ih (h.up_mem hid))

theorem mem_of_linksUp (hid : id ∈ names) (ha : g.LinksUp a id n) : a ∈ names := by
  induction ha with
  | here => exact hid
  | up hp _ ih =>
    rw [h.parent_eq_up hid] at hp
    exact ih (Option.some.inj hp ▸ h.up_mem hid)

/-- From some link on, the parents of a listed name run round a cycle of listed names. -/
theorem exists_cycle (hl : g.Linked) (hid : id ∈ names) :
    ∃ cs, g.IsCycle cs ∧ (∀ c ∈ cs, c ∈ names) ∧
      ∃ start, ∀ n, start ≤ n → ∃ a ∈ cs, g.LinksUp a id n := by
  obtain ⟨start, hstart⟩ := exists_iterate_mem_periodicPts (h.iterate_mem hid)
  have hmem (n : Nat) : g.up^[n] (g.up^[start] id) ∈ names :=
    h.iterate_mem (h.iterate_mem hid start) n
  refine ⟨(Function.periodicOrbit g.up (g.up^[start] id)).reverse, ⟨?_, ?_, ?_⟩, ?_, start, ?_⟩
  · intro hnil
    have hself := Cycle.mem_reverse_iff.2 (Function.self_mem_periodicOrbit hstart)
    rw [hnil] at hself
    exact Cycle.notMem_nil _ hself
  · exact Cycle.nodup_reverse_iff.2 Function.nodup_periodicOrbit
  · rw [chain_reverse, Function.periodicOrbit_chain' _ hstart]
    intro n
    rw [Function.iterate_succ_apply']
    exact hl.mem_edgeIds_of_parent (h.parent_eq_up (hmem n))
  · intro c hc
    obtain ⟨n, rfl⟩ := (Function.mem_periodicOrbit_iff hstart).1 (Cycle.mem_reverse_iff.1 hc)
    exact hmem n
  · intro n hn
    refine ⟨g.up^[n] id, Cycle.mem_reverse_iff.2 ?_, h.linksUp_iterate hid n⟩
    obtain ⟨k, rfl⟩ := Nat.exists_eq_add_of_le hn
    rw [Nat.add_comm, Function.iterate_add_apply]
    exact Function.iterate_mem_periodicOrbit hstart k

end HoldsParents

/-! ## Below a single source -/

/-- No edge enters `top`, one enters every other name, and `names` are those that `top` does not
lead to. -/
structure Strays (g : Graph) (top : String) (names : List String) : Prop where
  not_enters : ∀ p, (p, top) ∉ g.edgeIds
  exists_edge : ∀ c ∈ g.ids, c ≠ top → ∃ p, (p, c) ∈ g.edgeIds
  edge_unique : ∀ {p q c}, (p, c) ∈ g.edgeIds → (q, c) ∈ g.edgeIds → p = q
  mem_iff : ∀ c, c ∈ names ↔ c ∈ g.ids ∧ ¬ g.LeadsTo top c

namespace Strays

variable {top : String} (h : g.Strays top names)

include h

/-- The parent of a stray is a stray. -/
theorem mem_of_edge_into (hp : (p, c) ∈ g.edgeIds) (hc : c ∈ names) : p ∈ names := by
  obtain ⟨-, hlost⟩ := (h.mem_iff c).1 hc
  exact (h.mem_iff p).2 ⟨(mem_ids_of_mem_edgeIds hp).1, fun hlead => hlost (hlead.tail hp)⟩

theorem holdsParents (hl : g.Linked) : g.HoldsParents names := by
  intro id hid
  obtain ⟨hids, hlost⟩ := (h.mem_iff id).1 hid
  have hne : id ≠ top := by
    rintro rfl
    exact hlost .refl
  obtain ⟨q, hq⟩ := h.exists_edge id hids hne
  obtain ⟨p, hp⟩ := hl.exists_parent hq
  exact ⟨p, h.mem_of_edge_into (hl.mem_edgeIds_of_parent hp) hid, hp⟩

/-- What the root leads to has its parent on the way, so a child of a stray is a stray. -/
theorem mem_of_edge (hp : (p, c) ∈ g.edgeIds) (hmem : p ∈ names) : c ∈ names := by
  refine (h.mem_iff c).2 ⟨(mem_ids_of_mem_edgeIds hp).2, fun hlead => ?_⟩
  rcases Relation.ReflTransGen.cases_tail hlead with rfl | ⟨q, hq, he⟩
  · exact h.not_enters p hp
  · exact ((h.mem_iff p).1 hmem).2 (h.edge_unique he hp ▸ hq)

theorem mem_of_leadsTo (hlead : g.LeadsTo c id) (hc : c ∈ names) : id ∈ names := by
  induction hlead with
  | refl => exact hc
  | tail _ he ih => exact h.mem_of_edge he ih

/-- The root leads to no name on a cycle. -/
theorem not_leadsTo_of_cycle (hcs : g.IsCycle cs) (hlead : g.LeadsTo top c) : c ∉ cs := by
  induction hlead with
  | refl =>
    intro hc
    obtain ⟨p, -, hp⟩ := exists_mem_of_chain hcs.chain hc
    exact h.not_enters p hp
  | tail _ he ih =>
    intro hc
    obtain ⟨p, hmem, hp⟩ := exists_mem_of_chain hcs.chain hc
    exact ih (h.edge_unique hp he ▸ hmem)

theorem mem_of_cycle (hcs : g.IsCycle cs) (hc : c ∈ cs) : c ∈ names := by
  obtain ⟨p, -, hp⟩ := exists_mem_of_chain hcs.chain hc
  exact (h.mem_iff c).2 ⟨(mem_ids_of_mem_edgeIds hp).2,
    fun hlead => h.not_leadsTo_of_cycle hcs hlead hc⟩

end Strays

/-! ## The nodes reported as unreachable -/

/-- The names are the cycles of the graph and what hangs below them. -/
structure ListsCycles (g : Graph) (names : List String) : Prop where
  /-- Following recorded parents from a listed name stays among the listed names. -/
  mem_of_linksUp : ∀ id ∈ names, ∀ a n, g.LinksUp a id n → a ∈ names
  /-- It never ends. -/
  exists_linksUp : ∀ id ∈ names, ∀ n, ∃ a, g.LinksUp a id n
  /-- From some link on it runs round a cycle of listed names. -/
  enters_cycle : ∀ id ∈ names, ∃ cs, g.IsCycle cs ∧ (∀ c ∈ cs, c ∈ names) ∧
    ∃ start, ∀ n, start ≤ n → ∃ a ∈ cs, g.LinksUp a id n
  exists_cycle : ∃ cs, g.IsCycle cs ∧ ∀ c ∈ cs, c ∈ names
  mem_iff : ∀ id, id ∈ names ↔ ∃ cs, g.IsCycle cs ∧ ∃ c ∈ cs, g.LeadsTo c id
  mem_of_cycle : ∀ cs, g.IsCycle cs → ∀ c ∈ cs, c ∈ names

theorem Strays.listsCycles {top : String} (h : g.Strays top names) (hl : g.Linked)
    (hne : names ≠ []) : g.ListsCycles names := by
  have hp := h.holdsParents hl
  refine ⟨fun id hid a n ha => hp.mem_of_linksUp hid ha,
    fun id hid n => ⟨_, hp.linksUp_iterate hid n⟩, fun id hid => hp.exists_cycle hl hid, ?_,
    fun id => ⟨fun hid => ?_, ?_⟩, fun cs hcs c hc => h.mem_of_cycle hcs hc⟩
  · obtain ⟨id, hid⟩ := List.exists_mem_of_ne_nil names hne
    obtain ⟨cs, hcs, hmem, -⟩ := hp.exists_cycle hl hid
    exact ⟨cs, hcs, hmem⟩
  · obtain ⟨cs, hcs, -, start, hstart⟩ := hp.exists_cycle hl hid
    obtain ⟨a, ha, hup⟩ := hstart start (Nat.le_refl start)
    exact ⟨cs, hcs, a, ha, hl.leadsTo_of_linksUp hup⟩
  · rintro ⟨cs, hcs, c, hc, hlead⟩
    exact h.mem_of_leadsTo hlead (h.mem_of_cycle hcs hc)

theorem exists_strays (hl : g.Linked) (h : g.FirstViolation (.unreachable names)) :
    names ≠ [] ∧ ∃ top, g.Strays top names := by
  cases h with
  | @unreachable r i _ hs h1 hi hlost hn =>
    obtain ⟨top, htop⟩ := exists_getElem?_ids hs.lt_size
    obtain ⟨id, hid⟩ := exists_getElem?_ids hi
    have hmem {j : Nat} {c : String} (hj : g.ids[j]? = some c) :
        c ∈ names ↔ ¬ g.LeadsTo top c := by
      rw [hl.leadsTo_iff htop hj]
      exact hn.mem_iff hj
    refine ⟨List.ne_nil_of_mem ((hn.mem_iff hid).2 hlost), top, fun p hp => ?_,
      fun c hc hne => ?_, eq_of_mem_edgeIds h1, fun c => ?_⟩
    · obtain ⟨u, v, he, -, hv⟩ := mem_edgeIds_iff.1 hp
      obtain rfl : v = r := getElem?_ids_inj hv htop
      exact edgesInto_eq_zero_iff.1 hs.edgesInto_root u he
    · obtain ⟨j, hj⟩ := List.mem_iff_getElem?.1 hc
      have hpos : 0 < g.edgesInto j := by
        by_contra h0
        have hroot := hs.eq_of_edgesInto j (lt_size_of_getElem?_ids hj) (by omega)
        rw [hroot, htop] at hj
        exact hne (Option.some.inj hj).symm
      obtain ⟨u, hu⟩ := edgesInto_pos_iff.1 hpos
      obtain ⟨p, hp⟩ := exists_getElem?_ids (hl.inRange hu).1
      exact ⟨p, mem_edgeIds_iff.2 ⟨u, j, hu, hp, hj⟩⟩
    · constructor
      · intro hc
        have hids := hn.sublist.subset hc
        obtain ⟨j, hj⟩ := List.mem_iff_getElem?.1 hids
        exact ⟨hids, (hmem hj).1 hc⟩
      · rintro ⟨hids, hlead⟩
        obtain ⟨j, hj⟩ := List.mem_iff_getElem?.1 hids
        exact (hmem hj).2 hlead

/-- The nodes that are reported as unreachable in a graph that was read are the cycles of the graph
and what hangs below them. -/
theorem unreachable_listsCycles {text origin : String} (hg : Graph.parse text origin = .ok g)
    (h : g.treeRoot = .error (.unreachable names)) : g.ListsCycles names := by
  have hl := (built_and_nodup_of_parse hg).1.linked
  obtain ⟨hne, top, hs⟩ := exists_strays hl ((treeRoot_eq_error_iff hl).1 h)
  exact hs.listsCycles hl hne

/-! ## Two cycles beside an edge -/

/-- An edge out of the root, and two cycles with a node below each. -/
def detached : Graph :=
  ofPairs [("r", "a"), ("b", "c"), ("c", "b"), ("c", "d"), ("x", "y"), ("y", "x"), ("y", "z")]

theorem linked_detached : detached.Linked := (built_ofPairs _).linked

theorem ids_detached : detached.ids = ["r", "a", "b", "c", "d", "x", "y", "z"] := by
  unfold detached
  rw [ids_ofPairs]
  decide

theorem size_nodes_detached : detached.nodes.size = 8 := by
  rw [← length_ids, ids_detached]
  rfl

theorem toList_edges_detached : detached.edges.toList =
    [(0, 1), (2, 3), (3, 2), (3, 4), (5, 6), (6, 5), (6, 7)] := by
  rw [linked_detached.toList_edges_eq, ids_detached, detached, edgeIds_ofPairs]
  decide

theorem edgesInto_detached : ∀ i < 8, detached.edgesInto i = if i = 0 then 0 else 1 := by
  unfold edgesInto
  rw [toList_edges_detached]
  decide

/-- Only the first edge is reached from the root. -/
theorem reaches_detached_iff {i : Nat} : detached.Reaches 0 i ↔ i ≤ 1 := by
  constructor
  · intro h
    induction h with
    | refl => exact Nat.zero_le 1
    | tail _ he ih =>
      unfold HasEdge at he
      rw [toList_edges_detached] at he
      exact (by decide : ∀ e ∈ [(0, 1), (2, 3), (3, 2), (3, 4), (5, 6), (6, 5), (6, 7)],
        e.1 ≤ 1 → e.2 ≤ 1) _ he ih
  · intro h
    obtain rfl | rfl : i = 0 ∨ i = 1 := by omega
    · exact .refl
    · refine .single ?_
      unfold HasEdge
      rw [toList_edges_detached]
      exact List.mem_cons_self

theorem listsNames_detached :
    detached.ListsNames (fun i => ¬ detached.Reaches 0 i) ["b", "c", "d", "x", "y", "z"] := by
  refine ⟨?_, fun {i id} hi => ?_⟩
  · rw [ids_detached]
    decide
  · have hlt : i < 8 := size_nodes_detached ▸ lt_size_of_getElem?_ids hi
    rw [ids_detached] at hi
    rw [reaches_detached_iff]
    exact (by decide : ∀ i < 8, ∀ id ∈ ["r", "a", "b", "c", "d", "x", "y", "z"][i]?,
      id ∈ ["b", "c", "d", "x", "y", "z"] ↔ ¬ i ≤ 1) i hlt id hi

theorem treeRoot_detached :
    detached.treeRoot = .error (.unreachable ["b", "c", "d", "x", "y", "z"]) := by
  have hsource : detached.OnlySource 0 := by
    refine ⟨size_nodes_detached ▸ by omega, edgesInto_detached 0 (by omega), fun i hi h => ?_⟩
    rw [edgesInto_detached i (size_nodes_detached ▸ hi)] at h
    by_contra hzero
    rw [if_neg hzero] at h
    exact Nat.one_ne_zero h
  have hone (i : Nat) : detached.edgesInto i ≤ 1 := by
    rcases Nat.lt_or_ge i 8 with hi | hi
    · rw [edgesInto_detached i hi]
      split <;> omega
    · rw [linked_detached.edgesInto_of_le (size_nodes_detached ▸ hi)]
      omega
  refine treeRoot_of_firstViolation linked_detached
    (.unreachable hsource hone (i := 2) (size_nodes_detached ▸ by omega) ?_ listsNames_detached)
  rw [reaches_detached_iff]
  omega

theorem unreachable_listsCycles_detached :
    Graph.parse "r a\nb c\nc b\nc d\nx y\ny x\ny z" "detached" = .ok detached ∧
      detached.treeRoot = .error (.unreachable ["b", "c", "d", "x", "y", "z"]) ∧
      detached.ListsCycles ["b", "c", "d", "x", "y", "z"] := by
  have hrows : rows "r a\nb c\nc b\nc d\nx y\ny x\ny z" = [["r", "a"], ["b", "c"], ["c", "b"],
      ["c", "d"], ["x", "y"], ["y", "x"], ["y", "z"]] := by decide
  have hlists : ListsEdges (rows "r a\nb c\nc b\nc d\nx y\ny x\ny z") := by
    rw [hrows]
    exact ⟨by decide, by decide, by decide, by decide⟩
  have hg : Graph.parse "r a\nb c\nc b\nc d\nx y\ny x\ny z" "detached" = .ok detached := by
    rw [parse_of_listsEdges _ hlists, hrows]
    rfl
  exact ⟨hg, treeRoot_detached, unreachable_listsCycles hg treeRoot_detached⟩

end TreeCorpus.Graph
