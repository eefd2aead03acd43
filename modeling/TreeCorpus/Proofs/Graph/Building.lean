import TreeCorpus.Proofs.Graph.FeatureRows

/-!
# Building a graph from its edges and rows

Annotating puts rows on the nodes and changes nothing else (`Graph.eq_withRows_of_annotate`). The
nodes are taken in node order, each with the row of its own name, up to the first name without a row
of the dimension. All rows of a table have the dimension of the table, so an edge list is built just
when each of its names has a row and the table is of the dimension (`Graph.buildInline_exact`).
-/

namespace TreeCorpus

open Number

/-- The node without its features. -/
def Node.bare (n : Node) : Node := { n with features := [] }

theorem Node.bare_eq_self {n : Node} (h : n.features = []) : n.bare = n := by
  unfold bare
  rw [← h]

/-! ## Rows on nodes -/

namespace Graph

variable {g g' : Graph} {table : FeatureTable} {dimension : Nat} {origin text : String}

/-- The graph with the rows on its nodes, from position `i` on. -/
def withRowsFrom (i : Nat) (g : Graph) : List (List Single) → Graph
  | [] => g
  | v :: vs => withRowsFrom (i + 1) (g.setFeatures i v) vs

def withRows (g : Graph) (rows : List (List Single)) : Graph := withRowsFrom 0 g rows

/-- Annotating puts the rows of the names on the nodes. -/
theorem exists_withRowsFrom {i : Nat} {names : List String}
    (h : annotateFrom table dimension origin i g names = .ok g') :
    ∃ rows, names.map table.lookup = rows.map some ∧ g' = withRowsFrom i g rows := by
  induction names generalizing g i with
  | nil => exact ⟨[], rfl, (Except.ok.inj h).symm⟩
  | cons id names ih =>
    obtain ⟨v, hv, -, hrest⟩ := annotateFrom_cons_eq_ok h
    obtain ⟨rows, hrows, rfl⟩ := ih hrest
    exact ⟨v :: rows, by rw [List.map_cons, List.map_cons, hv, hrows], rfl⟩

/-- An annotated graph is the given one with its own rows. -/
theorem eq_withRows_of_annotate (h : g.annotate table dimension origin = .ok g') :
    g' = g.withRows (g'.nodes.toList.map Node.features) := by
  obtain ⟨rows, hrows, hg'⟩ := exists_withRowsFrom h
  rwa [(annotates_of_annotate h).map_features hrows]

theorem Annotates.edgeIds_eq (h : Annotates table dimension g g') : g'.edgeIds = g.edgeIds := by
  have hnames : g'.namesOf = g.namesOf := by
    funext e
    rw [namesOf, h.ids_eq, namesOf]
  rw [edgeIds_eq_filterMap, edgeIds_eq_filterMap, h.edges_eq, hnames]

/-! ## Nodes without rows -/

theorem map_bare_setFeatures (g : Graph) (i : Nat) (v : List Single) :
    (g.setFeatures i v).nodes.map Node.bare = g.nodes.map Node.bare := by
  apply Array.ext_getElem?
  intro j
  rw [Array.getElem?_map, Array.getElem?_map, getElem?_nodes_setFeatures]
  split
  · rw [Option.map_map]
    rfl
  · rfl

theorem map_bare_withRowsFrom (i : Nat) (g : Graph) (rows : List (List Single)) :
    (withRowsFrom i g rows).nodes.map Node.bare = g.nodes.map Node.bare := by
  induction rows generalizing g i with
  | nil => rfl
  | cons v rows ih => exact (ih (i + 1) (g.setFeatures i v)).trans (map_bare_setFeatures g i v)

theorem features_intern (h : ∀ n ∈ g.nodes, n.features = []) (id : String) :
    ∀ n ∈ (g.intern id).1.nodes, n.features = [] := by
  rcases hid : g.position id with _ | i
  · rw [intern_of_new hid]
    intro n hn
    rcases Array.mem_push.1 hn with hn | rfl
    · exact h n hn
    · rfl
  · rw [intern_of_position hid]
    exact h

/-- Adding an edge puts no features on a node. -/
theorem features_insertEdge (h : ∀ n ∈ g.nodes, n.features = []) (p c : String) :
    ∀ n ∈ (g.insertEdge p c).nodes, n.features = [] := by
  intro n hn
  rw [insertEdge_eq] at hn
  obtain ⟨i, hi⟩ := Array.mem_iff_getElem?.1 hn
  rw [getElem?_nodes_addEdge] at hi
  obtain ⟨m, hm, rfl⟩ := Option.map_eq_some_iff.1 hi
  exact features_intern (features_intern h p) c m (Array.mem_of_getElem? hm)

/-- The graph of some pairs has no rows on its nodes. -/
theorem map_bare_ofPairs (ps : List (String × String)) :
    (ofPairs ps).nodes.map Node.bare = (ofPairs ps).nodes := by
  have hfeatures : ∀ n ∈ (ofPairs ps).nodes, n.features = [] := by
    induction ps using List.reverseRecOn with
    | nil => exact fun n hn => absurd hn (Array.not_mem_empty n)
    | append_singleton ps e ih =>
      rw [ofPairs_concat]
      exact features_insertEdge ih e.1 e.2
  exact (Array.map_congr_left fun n hn => Node.bare_eq_self (hfeatures n hn)).trans (Array.map_id _)

/-- Without its rows an annotated graph has the nodes that were read. -/
theorem nodes_eq_map_bare (hparse : Graph.parse text origin = .ok g)
    (h : g.annotate table dimension origin = .ok g') : g.nodes = g'.nodes.map Node.bare := by
  obtain ⟨-, rfl⟩ := parse_eq_ok_iff.1 hparse
  rw [eq_withRows_of_annotate h]
  exact ((map_bare_withRowsFrom 0 _ _).trans (map_bare_ofPairs _)).symm

/-! ## Building from a table -/

/-- The node at a position keeps everything but its features, which become its own row. -/
theorem exists_row_of_annotate (h : g.annotate table dimension origin = .ok g') {i : Nat} {n : Node}
    (hn : g.nodes[i]? = some n) : ∃ v, table.lookup n.id = some v ∧ v.length = dimension ∧
      g'.nodes[i]? = some { n with features := v } := by
  have hbare : g'.nodes.map Node.bare = g.nodes.map Node.bare := by
    rw [eq_withRows_of_annotate h]
    exact map_bare_withRowsFrom 0 g _
  have hi := congrArg (·[i]?) hbare
  simp only [Array.getElem?_map, hn, Option.map_some, Option.map_eq_some_iff] at hi
  obtain ⟨n', hn', heq⟩ := hi
  obtain ⟨hlookup, hlength⟩ := (annotates_of_annotate h).features_eq n' (Array.mem_of_getElem? hn')
  have hid : n'.id = n.id := by injection heq
  have hnode : n' = { n with features := n'.features } :=
    congrArg (fun m : Node => { m with features := n'.features }) heq
  exact ⟨n'.features, hid ▸ hlookup, hlength, hn'.trans (congrArg some hnode)⟩

theorem Annotates.position_eq (h : Annotates table dimension g g') (id : String) :
    g'.position id = g.position id := by
  apply Option.ext
  intro i
  rw [position_eq_some_iff_getElem?, position_eq_some_iff_getElem?, h.ids_eq]

/-- The rows of a table all have its dimension, so one row tells whether they have another one. -/
theorem rows_fit_iff (ht : table.Built) (hpos : 0 < g.nodes.size) :
    (∀ id ∈ g.ids, ∃ v, table.lookup id = some v ∧ v.length = dimension) ↔
      (∀ id ∈ g.ids, ∃ v, table.lookup id = some v) ∧ table.dimension = dimension := by
  constructor
  · intro h
    refine ⟨fun id hid => (h id hid).imp fun _ => And.left, ?_⟩
    obtain ⟨v, hv, hlength⟩ := h _ (List.getElem_mem (length_ids g ▸ hpos))
    rw [← ht.length_of_lookup hv, hlength]
  · rintro ⟨h, rfl⟩ id hid
    exact (h id hid).imp fun v hv => ⟨hv, ht.length_of_lookup hv⟩

/-- A text is built with a table when it is an edge list, each of its names has a row and the table
is of the dimension. -/
theorem exists_build_iff (ht : table.Built) :
    (∃ g', build text origin table dimension = .ok g') ↔
      ∃ g, Graph.parse text origin = .ok g ∧ (∀ id ∈ g.ids, ∃ v, table.lookup id = some v) ∧
        table.dimension = dimension := by
  simp only [build_eq_ok_iff]
  constructor
  · rintro ⟨g', g, hparse, hann⟩
    exact ⟨g, hparse, (rows_fit_iff ht (size_nodes_pos_of_parse hparse)).1
      (annotates_of_annotate hann).exists_row⟩
  · rintro ⟨g, hparse, hrows⟩
    obtain ⟨g', hg'⟩ : ∃ g', g.annotate table dimension origin = .ok g' :=
      exists_annotate ((rows_fit_iff ht (size_nodes_pos_of_parse hparse)).2 hrows)
    exact ⟨g', g, hparse, hg'⟩

/-- An edge list is built with a table exactly when it is one, its nodes have rows and the table is
of the dimension. The graph is then the one that was read with the row of its name on every node.
Otherwise the edge list is at fault, or the first of its names without a row of the dimension. -/
theorem buildInline_exact (text : String) (dimension : Nat) (ht : table.Built) :
    ((∃ g', buildInline text table dimension = .ok g') ↔
      ∃ g, Graph.parse text inlineOrigin = .ok g ∧ (∀ id ∈ g.ids, ∃ v, table.lookup id = some v) ∧
        table.dimension = dimension) ∧
    (∀ g', buildInline text table dimension = .ok g' →
      ∃ g, Graph.parse text inlineOrigin = .ok g ∧ g'.edges = g.edges ∧
        (∀ id, g'.position id = g.position id) ∧ g'.nodes.size = g.nodes.size ∧
        ∀ (i : Nat) (n : Node), g.nodes[i]? = some n → ∃ v, table.lookup n.id = some v ∧
          g'.nodes[i]? = some { n with features := v }) ∧
    ∀ e, buildInline text table dimension = .error e ↔
      Graph.parse text inlineOrigin = .error e ∨
      (∃ g, Graph.parse text inlineOrigin = .ok g) ∧
        ∃ before id after, (rows text).flatten.eraseDups = before ++ id :: after ∧
          (∀ id' ∈ before, ∃ v, table.lookup id' = some v ∧ v.length = dimension) ∧
          RowMissing table dimension inlineOrigin id e := by
  refine ⟨exists_build_iff ht, fun g' hg' => ?_, fun e => ?_⟩
  · obtain ⟨g, hparse, hann⟩ := build_eq_ok_iff.1 hg'
    have hannotates := annotates_of_annotate hann
    refine ⟨g, hparse, hannotates.edges_eq, hannotates.position_eq, hannotates.size_nodes,
      fun i n hn => ?_⟩
    obtain ⟨v, hv, -, hnode⟩ := exists_row_of_annotate hann hn
    exact ⟨v, hv, hnode⟩
  · rw [buildInline, build_eq_error_iff]
    refine or_congr_right ?_
    constructor
    · rintro ⟨g, hparse, hann⟩
      rw [← ids_of_parse hparse]
      exact ⟨⟨g, hparse⟩, annotate_eq_error_iff.1 hann⟩
    · rintro ⟨⟨g, hparse⟩, hfirst⟩
      rw [← ids_of_parse hparse] at hfirst
      exact ⟨g, hparse, annotate_eq_error_iff.2 hfirst⟩

/-! ## Two edge lists and a table -/

/-- A table with rows for two names. -/
def pairTable : FeatureTable :=
  ⟨1, "rows", ((∅ : Std.HashMap String (List Single)).insert "b" [⟨0⟩]).insert "a" [⟨0x3F800000⟩]⟩

theorem built_pairTable : pairTable.Built :=
  ((FeatureTable.Built.empty 1 "rows").insert (FeatureTable.insert_eq_ok_iff.2 ⟨rfl, rfl⟩)).insert
    (FeatureTable.insert_eq_ok_iff.2 ⟨rfl, rfl⟩)

theorem lookup_pairTable (key : String) : pairTable.lookup key =
    if "a" = key then some [⟨0x3F800000⟩] else if "b" = key then some [⟨0⟩] else none := by
  unfold pairTable FeatureTable.lookup
  rw [Std.HashMap.getElem?_insert, Std.HashMap.getElem?_insert, Std.HashMap.getElem?_empty]
  simp only [beq_iff_eq]

/-- A name without a row is the fault, but a table of another dimension fails at the first name. -/
theorem buildInline_exact_pair : pairTable.Built ∧
    (∃ g', buildInline "b a" pairTable 1 = .ok g') ∧
    buildInline "b a\na c" pairTable 1 =
      .error (.missingFeature "c" "<inline> (features: rows)") ∧
    buildInline "b a\na c" pairTable 2 = .error (.featureDimension "b" "rows" 2 1) := by
  have hlists : ListsEdges (rows "b a") := by decide
  have hlists' : ListsEdges (rows "b a\na c") := by decide
  have hword : (rows "b a").flatten.eraseDups = ["b", "a"] := by decide
  have hwords : (rows "b a\na c").flatten.eraseDups = ["b", "a", "c"] := by decide
  obtain ⟨g, hg, hids⟩ := exists_parse hlists hword inlineOrigin
  obtain ⟨g', hg', -⟩ := exists_parse hlists' hwords inlineOrigin
  refine ⟨built_pairTable, (buildInline_exact "b a" 1 built_pairTable).1.2 ⟨g, hg, ?_, rfl⟩,
    ((buildInline_exact _ 1 built_pairTable).2.2 _).2 (Or.inr ⟨⟨g', hg'⟩, ["b", "a"], "c", [],
      hwords, ?_, .none (lookup_pairTable "c")⟩),
    ((buildInline_exact _ 2 built_pairTable).2.2 _).2 (Or.inr ⟨⟨g', hg'⟩, [], "b", ["a", "c"],
      hwords, by simp, .length (lookup_pairTable "b") (by decide)⟩)⟩
  · intro id hid
    rw [hids] at hid
    rcases List.mem_pair.1 hid with rfl | rfl
    · exact ⟨_, lookup_pairTable "b"⟩
    · exact ⟨_, lookup_pairTable "a"⟩
  · intro id hid
    rcases List.mem_pair.1 hid with rfl | rfl
    · exact ⟨_, lookup_pairTable "b", rfl⟩
    · exact ⟨_, lookup_pairTable "a", rfl⟩

end Graph

end TreeCorpus
