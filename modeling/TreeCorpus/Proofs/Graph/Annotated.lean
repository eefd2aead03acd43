import TreeCorpus.Graph.Annotated
import TreeCorpus.Proofs.Graph.Tree

/-!
# Annotating a graph

Annotating gives every node its own row of the table and changes nothing else (`Annotates`). It
goes through the nodes one by one, so what one step does to the nodes before and after it is carried
along the list of names (`getElem?_annotateFrom`). It fails exactly at the first node whose name has
no row of the dimension (`annotate_eq_error_iff`).
-/

namespace TreeCorpus.Graph

variable {g g' : Graph} {table : FeatureTable} {dimension : Nat} {origin : String}

/-- The graph `g'` is `g` with the row of its name on every node, all rows of the dimension. -/
structure Annotates (table : FeatureTable) (dimension : Nat) (g g' : Graph) : Prop where
  edges_eq : g'.edges = g.edges
  ids_eq : g'.ids = g.ids
  features_eq : ∀ n ∈ g'.nodes, table.lookup n.id = some n.features ∧
    n.features.length = dimension

/-- Why the node of a name cannot be annotated. -/
inductive RowMissing (table : FeatureTable) (dimension : Nat) (origin id : String) : Error → Prop where
  | none : table.lookup id = none →
      RowMissing table dimension origin id
        (.missingFeature id s!"{origin} (features: {table.origin})")
  | length {v : List Number.Single} : table.lookup id = some v → v.length ≠ dimension →
      RowMissing table dimension origin id
        (.featureDimension id table.origin dimension v.length)

/-! ## One step -/

theorem getElem?_nodes_setFeatures (g : Graph) (i : Nat) (v : List Number.Single) (j : Nat) :
    (g.setFeatures i v).nodes[j]? =
      if i = j then (g.nodes[j]?).map fun n => { n with features := v } else g.nodes[j]? :=
  getElem?_nodes_modifyNode ..

theorem ids_setFeatures (g : Graph) (i : Nat) (v : List Number.Single) :
    (g.setFeatures i v).ids = g.ids :=
  ids_modifyNode ..

/-- Annotating from a name on gives its node the row of the name and goes on. -/
theorem annotateFrom_cons_eq_ok {i : Nat} {id : String} {names : List String}
    (h : annotateFrom table dimension origin i g (id :: names) = .ok g') :
    ∃ v, table.lookup id = some v ∧ v.length = dimension ∧
      annotateFrom table dimension origin (i + 1) (g.setFeatures i v) names = .ok g' := by
  unfold annotateFrom at h
  split at h
  · exact absurd h (by simp)
  · rename_i v hv
    split at h
    · exact absurd h (by simp)
    · rename_i hl
      exact ⟨v, hv, Decidable.not_not.1 hl, h⟩

theorem annotateFrom_cons_of_lookup {i : Nat} {id : String} {names : List String}
    {v : List Number.Single} (hv : table.lookup id = some v) (hl : v.length = dimension) :
    annotateFrom table dimension origin i g (id :: names) =
      annotateFrom table dimension origin (i + 1) (g.setFeatures i v) names := by
  rw [annotateFrom, hv]
  simp only [hl, ne_eq, not_true_eq_false, if_false]

theorem annotateFrom_cons_of_rowMissing {i : Nat} {id : String} {names : List String} {e : Error}
    (h : RowMissing table dimension origin id e) :
    annotateFrom table dimension origin i g (id :: names) = .error e := by
  cases h with
  | none h => rw [annotateFrom, h]
  | length h hl =>
    rw [annotateFrom, h]
    exact if_pos hl

/-- A name either has a row of the dimension or none that fits. -/
theorem exists_row_or_rowMissing (table : FeatureTable) (dimension : Nat) (origin id : String) :
    (∃ v, table.lookup id = some v ∧ v.length = dimension) ∨
      ∃ e, RowMissing table dimension origin id e := by
  cases hv : table.lookup id with
  | none => exact Or.inr ⟨_, .none hv⟩
  | some v =>
    by_cases hl : v.length = dimension
    · exact Or.inl ⟨v, rfl, hl⟩
    · exact Or.inr ⟨_, .length hv hl⟩

/-! ## All nodes -/

section Run

variable {i : Nat} {names : List String}

theorem Built.annotateFrom (hg : g.Built)
    (h : annotateFrom table dimension origin i g names = .ok g') : g'.Built := by
  induction names generalizing g i with
  | nil => exact Except.ok.inj h ▸ hg
  | cons id names ih =>
    obtain ⟨v, -, -, hrest⟩ := annotateFrom_cons_eq_ok h
    exact ih (hg.setFeatures i v) hrest

theorem annotateFrom_structure (h : annotateFrom table dimension origin i g names = .ok g') :
    g'.edges = g.edges ∧ g'.ids = g.ids := by
  induction names generalizing g i with
  | nil =>
    obtain rfl := Except.ok.inj h
    exact ⟨rfl, rfl⟩
  | cons id names ih =>
    obtain ⟨v, -, -, hrest⟩ := annotateFrom_cons_eq_ok h
    obtain ⟨he, hi⟩ := ih hrest
    exact ⟨he, hi.trans (ids_setFeatures g i v)⟩

/-- The nodes before the first position keep their features. -/
theorem getElem?_annotateFrom_of_lt
    (h : annotateFrom table dimension origin i g names = .ok g') {j : Nat} (hj : j < i) :
    g'.nodes[j]? = g.nodes[j]? := by
  induction names generalizing g i with
  | nil => rw [Except.ok.inj h]
  | cons id names ih =>
    obtain ⟨v, -, -, hrest⟩ := annotateFrom_cons_eq_ok h
    rw [ih hrest (by omega), getElem?_nodes_setFeatures, if_neg (by omega)]

/-- The node at the position of a listed name has the row of that name. -/
theorem getElem?_annotateFrom
    (h : annotateFrom table dimension origin i g names = .ok g') {k : Nat} {id : String} {n : Node}
    (hk : names[k]? = some id) (hn : g'.nodes[i + k]? = some n) :
    table.lookup id = some n.features ∧ n.features.length = dimension := by
  induction names generalizing g i k with
  | nil => exact absurd hk (by simp)
  | cons name names ih =>
    obtain ⟨v, hv, hl, hrest⟩ := annotateFrom_cons_eq_ok h
    cases k with
    | zero =>
      obtain rfl : name = id := Option.some.inj hk
      rw [Nat.add_zero, getElem?_annotateFrom_of_lt hrest (Nat.lt_succ_self i),
        getElem?_nodes_setFeatures, if_pos rfl] at hn
      obtain ⟨m, -, rfl⟩ := Option.map_eq_some_iff.1 hn
      exact ⟨hv, hl⟩
    | succ k =>
      rw [show i + (k + 1) = i + 1 + k by omega] at hn
      exact ih hrest hk hn

/-- Names that all have a row of the dimension can be annotated. -/
theorem exists_annotateFrom
    (h : ∀ id ∈ names, ∃ v, table.lookup id = some v ∧ v.length = dimension) :
    ∃ g', annotateFrom table dimension origin i g names = .ok g' := by
  induction names generalizing g i with
  | nil => exact ⟨g, rfl⟩
  | cons id names ih =>
    obtain ⟨v, hv, hl⟩ := h id List.mem_cons_self
    obtain ⟨g', hg'⟩ := ih fun id' hid => h id' (List.mem_cons_of_mem id hid)
    exact ⟨g', (annotateFrom_cons_of_lookup hv hl).trans hg'⟩

/-- The first name without a row of the dimension decides. -/
theorem annotateFrom_eq_error_iff {e : Error} :
    annotateFrom table dimension origin i g names = .error e ↔
      ∃ before id after, names = before ++ id :: after ∧
        (∀ id' ∈ before, ∃ v, table.lookup id' = some v ∧ v.length = dimension) ∧
        RowMissing table dimension origin id e := by
  constructor
  · intro h
    induction names generalizing g i with
    | nil => exact nomatch h
    | cons id names ih =>
      rcases exists_row_or_rowMissing table dimension origin id with ⟨v, hv, hl⟩ | ⟨e', he'⟩
      · rw [annotateFrom_cons_of_lookup hv hl] at h
        obtain ⟨before, id', after, rfl, hbefore, hid'⟩ := ih h
        exact ⟨id :: before, id', after, rfl,
          List.forall_mem_cons.2 ⟨⟨v, hv, hl⟩, hbefore⟩, hid'⟩
      · rw [annotateFrom_cons_of_rowMissing he'] at h
        obtain rfl := Except.error.inj h
        exact ⟨[], id, names, rfl, by simp, he'⟩
  · rintro ⟨before, id, after, rfl, hbefore, hid⟩
    induction before generalizing g i with
    | nil => exact annotateFrom_cons_of_rowMissing hid
    | cons id' before ih =>
      obtain ⟨⟨v, hv, hl⟩, hbefore⟩ := List.forall_mem_cons.1 hbefore
      rw [List.cons_append, annotateFrom_cons_of_lookup hv hl]
      exact ih hbefore

end Run

/-- A graph that was annotated is the given one with the rows of the table. -/
theorem annotates_of_annotate (h : g.annotate table dimension origin = .ok g') :
    Annotates table dimension g g' := by
  obtain ⟨hedges, hids⟩ := annotateFrom_structure h
  refine ⟨hedges, hids, fun n hn => ?_⟩
  obtain ⟨i, hi⟩ := Array.mem_iff_getElem?.1 hn
  have hid : g.ids[i]? = some n.id := by
    rw [← hids, ← idAt_eq_getElem?, idAt, hi]
    rfl
  exact getElem?_annotateFrom h hid (by rw [Nat.zero_add, hi])

/-- The rows of the nodes, in order, are those of their names. -/
theorem Annotates.map_lookup_ids (h : Annotates table dimension g g') :
    g.ids.map table.lookup = (g'.nodes.toList.map Node.features).map some := by
  rw [← h.ids_eq, ids, List.map_map, List.map_map]
  exact List.map_congr_left fun n hn => (h.features_eq n (Array.mem_toList_iff.1 hn)).1

/-- The rows that stand for the names, in order, are those of the nodes. -/
theorem Annotates.map_features (h : Annotates table dimension g g') {vs : List (List Number.Single)}
    (hvs : g.ids.map table.lookup = vs.map some) : g'.nodes.toList.map Node.features = vs :=
  (List.map_inj_right fun _ _ => Option.some.inj).1 (h.map_lookup_ids.symm.trans hvs)

theorem Annotates.size_nodes (h : Annotates table dimension g g') :
    g'.nodes.size = g.nodes.size := by
  rw [← length_ids, ← length_ids, h.ids_eq]

/-- Annotating keeps a tree and makes none. -/
theorem Annotates.rootedAt_iff (h : Annotates table dimension g g') {r : Nat} :
    g'.RootedAt r ↔ g.RootedAt r :=
  ⟨fun hr => hr.congr h.edges_eq.symm h.size_nodes.symm, fun hr => hr.congr h.edges_eq h.size_nodes⟩

/-- Every name has a row, which is that of its node. -/
theorem Annotates.exists_row (h : Annotates table dimension g g') :
    ∀ id ∈ g.ids, ∃ v, table.lookup id = some v ∧ v.length = dimension := by
  intro id hid
  rw [← h.ids_eq] at hid
  obtain ⟨n, hn, rfl⟩ := List.mem_map.1 hid
  exact ⟨n.features, h.features_eq n (Array.mem_toList_iff.1 hn)⟩

theorem exists_annotate (h : ∀ id ∈ g.ids, ∃ v, table.lookup id = some v ∧ v.length = dimension) :
    ∃ g', g.annotate table dimension origin = .ok g' :=
  exists_annotateFrom h

/-- Annotating fails at the first node whose name has no row of the dimension. -/
theorem annotate_eq_error_iff {e : Error} :
    g.annotate table dimension origin = .error e ↔
      ∃ before id after, g.ids = before ++ id :: after ∧
        (∀ id' ∈ before, ∃ v, table.lookup id' = some v ∧ v.length = dimension) ∧
        RowMissing table dimension origin id e :=
  annotateFrom_eq_error_iff

theorem Built.annotate (hg : g.Built) (h : g.annotate table dimension origin = .ok g') :
    g'.Built :=
  hg.annotateFrom h

/-- Building reads the edge list and annotates its graph. -/
theorem build_eq_ok_iff {text : String} :
    build text origin table dimension = .ok g' ↔
      ∃ g, Graph.parse text origin = .ok g ∧ g.annotate table dimension origin = .ok g' := by
  unfold build
  cases Graph.parse text origin <;> simp

/-- The graphs that building gives have a node. -/
theorem built_of_build {text : String} (h : build text origin table dimension = .ok g) :
    g.Built ∧ 0 < g.nodes.size := by
  obtain ⟨g₀, hparse, hann⟩ := build_eq_ok_iff.1 h
  have hpos := size_nodes_pos_of_parse hparse
  rw [← (annotates_of_annotate hann).size_nodes] at hpos
  exact ⟨((built_and_nodup_of_parse hparse).1).annotate hann, hpos⟩

theorem build_eq_error_iff {text : String} {e : Error} :
    build text origin table dimension = .error e ↔
      Graph.parse text origin = .error e ∨
        ∃ g, Graph.parse text origin = .ok g ∧ g.annotate table dimension origin = .error e := by
  unfold build
  cases Graph.parse text origin <;> simp

end TreeCorpus.Graph
