import TreeCorpus.Dataset.Sample
import TreeCorpus.Disk.Edit
import TreeCorpus.Proofs.Catalog.Domain
import TreeCorpus.Proofs.Graph.Annotated
import TreeCorpus.Proofs.Graph.Tree
import TreeCorpus.Proofs.Label

/-!
# Built samples

Building a sample resolves its index, reads the edge list, gives the nodes the rows of a table,
checks that the graph is a tree and encodes the category (`buildSample_eq_ok_iff`,
`buildGraph_eq_ok_iff`). What comes out of a dataset made from settings is an annotated tree with a
one-hot label (`sample_of_settings`).
-/

namespace TreeCorpus

/-- The table of the settings for a solution: the shared one as it stood on the disk `d₀` when the
dataset was made, or the one that stands beside the edge list on the disk `d`. -/
def FeatureSettings.IsTableFor (f : FeatureSettings) (d₀ d : Disk) (sol : Solution)
    (table : FeatureTable) : Prop :=
  match f.table with
  | some path => FeatureTable.load d₀ path f.dimension = .ok table
  | none => FeatureTable.load d (Path.withExtension sol.path f.sidecarExtension) f.dimension =
      .ok table

/-! ## The graph of a file -/

namespace Graph

variable {d : Disk} {path : String} {table : FeatureTable} {dimension : Nat} {g : Graph}

theorem buildFile_eq_ok_iff :
    buildFile d path table dimension = .ok g ↔
      ∃ text, d.read path = .ok text ∧ build text path table dimension = .ok g := by
  unfold buildFile
  cases d.read path <;> simp

/-- A file that is read is there. -/
theorem isFile_of_read {text : String} (h : d.read path = .ok text) : d.isFile path = true := by
  unfold Disk.read Disk.readText Disk.readContent at h
  unfold Disk.isFile
  cases hi : d.item? path with
  | error fault =>
    rw [hi] at h
    exact absurd h (by simp [Except.mapError])
  | ok item =>
    rw [hi] at h
    cases item with
    | file c => rfl
    | directory => exact absurd h (by simp [Except.mapError])
    | link target => exact absurd h (by simp [Except.mapError])

theorem buildWithSidecar_eq_ok_iff {ext : String} :
    buildWithSidecar d path ext dimension = .ok g ↔
      ∃ table, FeatureTable.load d (Path.withExtension path ext) dimension = .ok table ∧
        buildFile d path table dimension = .ok g := by
  unfold buildWithSidecar
  constructor
  · intro h
    split at h
    · cases ht : FeatureTable.load d (Path.withExtension path ext) dimension with
      | error e =>
        rw [ht] at h
        exact absurd h (by simp)
      | ok table =>
        rw [ht] at h
        exact ⟨table, rfl, h⟩
    · exact absurd h (by simp)
  · rintro ⟨table, ht, hg⟩
    obtain ⟨text, hread, -⟩ := buildFile_eq_ok_iff.1 hg
    rw [if_pos (isFile_of_read hread), ht]
    exact hg

end Graph

/-! ## The stages of a sample -/

namespace Dataset

variable {a : Dataset} {d : Disk} {i : Nat} {s : Sample} {sol : Solution} {g : Graph}

/-- The table that the rows of a solution come from. -/
def IsTableFor (a : Dataset) (d : Disk) (sol : Solution) (table : FeatureTable) : Prop :=
  match a.shared with
  | some t => table = t
  | none => FeatureTable.load d (Path.withExtension sol.path a.sidecarExtension) a.dimension =
      .ok table

/-- The graph of a solution is that of its edge list with the rows of its table. -/
theorem buildGraph_eq_ok_iff :
    a.buildGraph d sol = .ok g ↔
      ∃ table text g₀, a.IsTableFor d sol table ∧ d.read sol.path = .ok text ∧
        Graph.parse text sol.path = .ok g₀ ∧
        g₀.annotate table a.dimension sol.path = .ok g := by
  have hfile (table : FeatureTable) :
      Graph.buildFile d sol.path table a.dimension = .ok g ↔
        ∃ text g₀, d.read sol.path = .ok text ∧ Graph.parse text sol.path = .ok g₀ ∧
          g₀.annotate table a.dimension sol.path = .ok g := by
    simp only [Graph.buildFile_eq_ok_iff, Graph.build_eq_ok_iff, exists_and_left]
  unfold buildGraph IsTableFor
  cases a.shared with
  | some t => simp only [hfile, exists_and_left, exists_eq_left]
  | none => simp only [Graph.buildWithSidecar_eq_ok_iff, hfile, exists_and_left]

/-- The graph of a solution is linked. -/
theorem linked_of_buildGraph (h : a.buildGraph d sol = .ok g) : g.Linked := by
  obtain ⟨table, text, g₀, -, -, hparse, hann⟩ := buildGraph_eq_ok_iff.1 h
  exact ((Graph.built_and_nodup_of_parse hparse).1.annotate hann).linked

/-- A sample is a solution with its graph, which is a tree, and the label of its category. -/
theorem buildSample_eq_ok_iff :
    a.buildSample d i = .ok s ↔
      s.index = i ∧ a.index.resolve i = .ok s.solution ∧
        a.buildGraph d s.solution = .ok s.graph ∧ (∃ r, s.graph.treeRoot = .ok r) ∧
        Label.encode s.solution.category.ordinal a.index.catalog.size = .ok s.label := by
  obtain ⟨index, sol, g, label⟩ := s
  unfold buildSample buildSolution
  constructor
  · intro h
    cases hr : a.index.resolve i with
    | error e =>
      rw [hr] at h
      exact absurd h (by simp)
    | ok sol' =>
      simp only [hr] at h
      cases hg : a.buildGraph d sol' with
      | error e =>
        rw [hg] at h
        exact absurd h (by simp)
      | ok g' =>
        simp only [hg] at h
        cases ht : g'.treeRoot with
        | error v =>
          rw [ht] at h
          exact absurd h (by simp)
        | ok r =>
          simp only [ht] at h
          cases hl : Label.encode sol'.category.ordinal a.index.catalog.size with
          | error e =>
            rw [hl] at h
            exact absurd h (by simp [Except.map])
          | ok label' =>
            rw [hl] at h
            obtain ⟨rfl, rfl, rfl, rfl⟩ := Sample.mk.inj (Except.ok.inj h)
            exact ⟨rfl, rfl, hg, ⟨r, ht⟩, hl⟩
  · rintro ⟨rfl, hr, hg, ⟨r, ht⟩, hl⟩
    simp only [hr, hg, ht, hl]
    rfl

/-- A dataset made from settings has the index of its catalog, and the table that the settings name,
if they name one, as its shared table. -/
theorem load_eq_ok_iff {d₀ : Disk} {c : Config} :
    load d₀ c = .ok a ↔
      SampleIndex.load d₀ c.catalog = .ok a.index ∧ a.dimension = c.features.dimension ∧
        a.sidecarExtension = c.features.sidecarExtension ∧
        (c.features.table = none ∧ a.shared = none ∨
          ∃ path table, c.features.table = some path ∧
            FeatureTable.load d₀ path c.features.dimension = .ok table ∧ a.shared = some table) := by
  obtain ⟨index, dimension, extension, shared⟩ := a
  unfold load
  cases hx : SampleIndex.load d₀ c.catalog with
  | error e => simp
  | ok x =>
    cases hp : c.features.table with
    | none =>
      simp [eq_comm]
    | some path =>
      cases ht : FeatureTable.load d₀ path c.features.dimension with
      | error e => simp [Except.map, ht]
      | ok t => simp [Except.map, ht, eq_comm]

/-- A dataset made from settings has a formed index and the tables of its settings. -/
theorem of_load {d₀ : Disk} {c : Config} (h : load d₀ c = .ok a) :
    a.index.Formed ∧ a.dimension = c.features.dimension ∧
      ∀ d sol table, a.IsTableFor d sol table ↔ c.features.IsTableFor d₀ d sol table := by
  obtain ⟨hindex, hdimension, hextension, htable⟩ := load_eq_ok_iff.1 h
  refine ⟨SampleIndex.formed_of_load hindex, hdimension, fun d sol table => ?_⟩
  unfold IsTableFor FeatureSettings.IsTableFor
  rcases htable with ⟨hnone, hshared⟩ | ⟨path, t, hsome, ht, hshared⟩
  · simp only [hnone, hshared, hdimension, hextension]
  · simp only [hsome, hshared, ht, Except.ok.injEq]
    exact eq_comm

end Dataset

/-! ## What a sample is -/

/-- The sample of an index: its solution, an annotated tree and the label of its category. The
edges are those of the edge list on the disk, and the rows those of the table that the settings
name. -/
structure Sample.Depicts (s : Sample) (x : SampleIndex) (i : Nat) (f : FeatureSettings)
    (d₀ d : Disk) : Prop where
  index_eq : s.index = i
  resolve_eq : x.resolve i = .ok s.solution
  edges_eq : ∃ text g₀, d.read s.solution.path = .ok text ∧
    Graph.parse text s.solution.path = .ok g₀ ∧ s.graph.edges = g₀.edges ∧ s.graph.ids = g₀.ids
  rooted : ∃ r, s.graph.RootedAt r ∧
    ∀ i n, s.graph.nodes[i]? = some n → n.inDegree = if i = r then 0 else 1
  two_le_size : 2 ≤ s.graph.nodes.size
  rows : ∃ table, f.IsTableFor d₀ d s.solution table ∧
    ∀ n ∈ s.graph.nodes, table.lookup n.id = some n.features ∧ n.features.length = f.dimension
  length_label : s.label.length = x.catalog.size
  category_eq : x.catalog.category? s.solution.category.ordinal = some s.solution.category
  isOneHot : Label.IsOneHot s.label s.solution.category.ordinal
  decode_eq : Label.decode s.label = some s.solution.category.ordinal

/-- The in-degree that a node of a tree records. -/
theorem Graph.RootedAt.inDegree_eq {g : Graph} {r i : Nat} {n : Node} (h : g.RootedAt r)
    (hl : g.Linked) (hn : g.nodes[i]? = some n) : n.inDegree = if i = r then 0 else 1 := by
  rw [hl.inDegree_eq hn]
  split
  · rename_i hi
    rw [hi, h.edgesInto_root]
  · rename_i hi
    exact h.edgesInto_other i (Array.getElem?_eq_some_iff.1 hn).1 hi

/-- The samples of a dataset made from settings depict the solutions of their indexes. -/
theorem sample_of_settings {d₀ d : Disk} {c : Config} {a : Dataset} {i : Nat} {s : Sample}
    (ha : Dataset.load d₀ c = .ok a) (hs : a.buildSample d i = .ok s) :
    s.Depicts a.index i c.features d₀ d := by
  obtain ⟨hformed, hdim, htables⟩ := Dataset.of_load ha
  obtain ⟨rfl, hresolve, hgraph, ⟨r, hroot⟩, hlabel⟩ := Dataset.buildSample_eq_ok_iff.1 hs
  obtain ⟨table, text, g₀, htable, hread, hparse, hann⟩ := Dataset.buildGraph_eq_ok_iff.1 hgraph
  have hlinked := Dataset.linked_of_buildGraph hgraph
  have hrooted := (Graph.treeRoot_eq_ok_iff hlinked).1 hroot
  have hannotates := Graph.annotates_of_annotate hann
  have hedges := Graph.size_edges_pos_of_parse hparse
  rw [← hannotates.edges_eq] at hedges
  have hsize := hrooted.size_edges hlinked
  obtain ⟨hlength, hhot⟩ := Label.of_encode_eq_ok hlabel
  refine ⟨rfl, hresolve, ⟨text, g₀, hread, hparse, hannotates.edges_eq,
    hannotates.ids_eq⟩, ⟨r, hrooted, fun i n hn => hrooted.inDegree_eq hlinked hn⟩, by omega,
    ⟨table, (htables d s.solution table).1 htable, ?_⟩, hlength,
    (hformed.of_resolve hresolve).1.category?_eq, hhot, hhot.decode_eq⟩
  rw [← hdim]
  exact hannotates.features_eq

/-! ## A dataset of one solution -/

/-- The edge from `p` to `c`, with a table beside it. -/
def soloDisk (table : String) : Disk :=
  (Disk.empty.store "r/a/a-1.edges" (.text "p c")).store "r/a/a-1.features" (.text table)

def soloSettings : Config :=
  { catalog := { root := "r", categories := ["a"] }, features := { dimension := 1 } }

def soloCatalog : Catalog := ⟨"r", "edges", [⟨"a", [1], 1⟩]⟩

def soloDataset : Dataset := ⟨.ofCatalog soloCatalog soloSettings.catalog, 1, "features", none⟩

theorem formed_soloDataset : soloDataset.index.Formed := ⟨soloCatalog, soloSettings.catalog, rfl⟩

def soloSolution : Solution := ⟨⟨"a", 0⟩, 1, "r/a/a-1.edges"⟩

theorem resolve_soloDataset : soloDataset.index.resolve 0 = .ok soloSolution := by decide +kernel

/-- The graph with one edge. -/
def soloGraph : Graph := Graph.ofPairs [("p", "c")]

theorem built_soloGraph : soloGraph.Built := Graph.built_ofPairs _

theorem ids_soloGraph : soloGraph.ids = ["p", "c"] := by
  unfold soloGraph
  rw [Graph.ids_ofPairs]
  decide

theorem rootedAt_soloGraph : soloGraph.RootedAt 0 :=
  Graph.rootedAt_ofPairs (show _ = ["p", "c"] by decide) (by decide) (by decide) (by decide)

theorem parse_solo (origin : String) : Graph.parse "p c" origin = .ok soloGraph := by
  have hlists : Graph.ListsEdges (Graph.rows "p c") := by decide
  have hpairs : Graph.pairs (Graph.rows "p c") = [("p", "c")] := by decide
  rw [Graph.parse_of_listsEdges _ hlists, hpairs]
  rfl

/-- A table of two rows. -/
def soloTable (v w : Number.Single) : FeatureTable :=
  ⟨1, "r/a/a-1.features", ((∅ : Std.HashMap String (List Number.Single)).insert "p" [v]).insert
    "c" [w]⟩

theorem lookup_soloTable (v w : Number.Single) :
    (soloTable v w).lookup "p" = some [v] ∧ (soloTable v w).lookup "c" = some [w] := by
  have hne : ("c" == "p") = false := by decide
  unfold soloTable FeatureTable.lookup
  constructor
  · rw [Std.HashMap.getElem?_insert, hne, Std.HashMap.getElem?_insert_self]
    rfl
  · exact Std.HashMap.getElem?_insert_self

theorem map_lookup_soloGraph (v w : Number.Single) :
    soloGraph.ids.map (soloTable v w).lookup = [[v], [w]].map some := by
  obtain ⟨hp, hc⟩ := lookup_soloTable v w
  rw [ids_soloGraph]
  simp [hp, hc]

theorem lookup_of_mem_soloGraph (v w : Number.Single) {id : String} (hid : id ∈ soloGraph.ids) :
    ∃ u, (soloTable v w).lookup id = some u ∧ u.length = 1 := by
  have hmem := List.mem_map_of_mem (f := (soloTable v w).lookup) hid
  rw [map_lookup_soloGraph] at hmem
  obtain ⟨u, hu, hid⟩ := List.mem_map.1 hmem
  refine ⟨u, hid.symm, ?_⟩
  rcases List.mem_pair.1 hu with rfl | rfl <;> rfl

/-- The lines of a text are two rows, of the two nodes in order. -/
def SoloRows (text : String) (v w : Number.Single) : Prop :=
  (Text.lines text).map (fun l => FeatureTable.readRow (Text.trim l)) =
    [.ok ("p", [v]), .ok ("c", [w])]

/-- A file with a line for each of the two rows holds the table. -/
theorem isTableFor_soloTable {v w : Number.Single} {text : String} (h : SoloRows text v w) :
    soloDataset.IsTableFor (soloDisk text) soloSolution (soloTable v w) := by
  obtain ⟨l₁, ls, hlines, h₁, hls⟩ := List.map_eq_cons_iff.1 h
  obtain ⟨l₂, ls, rfl, h₂, hnil⟩ := List.map_eq_cons_iff.1 hls
  obtain rfl := List.map_eq_nil_iff.1 hnil
  have hread : (soloDisk text).read "r/a/a-1.features" = .ok text := rfl
  have hpath : Path.withExtension soloSolution.path soloDataset.sidecarExtension =
      "r/a/a-1.features" := by decide +kernel
  have hne {line : String} {e : String × List Number.Single}
      (h : FeatureTable.readRow (Text.trim line) = .ok e) : (Text.trim line).isEmpty = false := by
    rw [String.isEmpty_eq_false_iff]
    intro he
    rw [he] at h
    exact absurd (show Except.error RowFault.noColon = Except.ok e from h) (by simp)
  show FeatureTable.load (soloDisk text)
    (Path.withExtension soloSolution.path soloDataset.sidecarExtension) 1 = _
  unfold FeatureTable.load FeatureTable.parse FeatureTable.ofText
  simp only [hpath, hread, hlines, FeatureTable.readLines, FeatureTable.readLine, hne h₁, hne h₂,
    h₁, h₂]
  rfl

/-- With a row for each of its two nodes the solution has a sample. -/
theorem exists_soloSample {v w : Number.Single} {text : String} (h : SoloRows text v w) :
    ∃ s, soloDataset.buildSample (soloDisk text) 0 = .ok s ∧
      s.graph.nodes.toList.map Node.features = [[v], [w]] := by
  obtain ⟨g, hg⟩ : ∃ g, soloGraph.annotate (soloTable v w) 1 soloSolution.path = .ok g :=
    Graph.exists_annotate fun id hid => lookup_of_mem_soloGraph v w hid
  have hannotates := Graph.annotates_of_annotate hg
  have hrooted := hannotates.rootedAt_iff.2 rootedAt_soloGraph
  have hroot := Graph.treeRoot_of_rootedAt (built_soloGraph.annotate hg).linked hrooted
  have hgraph : soloDataset.buildGraph (soloDisk text) soloSolution = .ok g :=
    Dataset.buildGraph_eq_ok_iff.2
      ⟨soloTable v w, "p c", soloGraph, isTableFor_soloTable h, rfl, parse_solo _, hg⟩
  exact ⟨⟨0, soloSolution, g, [1]⟩, Dataset.buildSample_eq_ok_iff.2
    ⟨rfl, resolve_soloDataset, hgraph, ⟨0, hroot⟩, rfl⟩,
    hannotates.map_features (map_lookup_soloGraph v w)⟩

theorem load_soloDataset {table : String}
    (h : Catalog.load (soloDisk table) soloSettings.catalog = .ok soloCatalog) :
    Dataset.load (soloDisk table) soloSettings = .ok soloDataset := by
  unfold Dataset.load SampleIndex.load
  rw [h]
  rfl

theorem sample_of_settings_solo : ∃ s,
    Dataset.load (soloDisk "p: 1\nc: 2") soloSettings = .ok soloDataset ∧
      soloDataset.buildSample (soloDisk "p: 1\nc: 2") 0 = .ok s ∧
      s.Depicts soloDataset.index 0 soloSettings.features (soloDisk "p: 1\nc: 2")
        (soloDisk "p: 1\nc: 2") := by
  have hload : Dataset.load (soloDisk "p: 1\nc: 2") soloSettings = .ok soloDataset :=
    load_soloDataset (by decide +kernel)
  have hrows : SoloRows "p: 1\nc: 2" ⟨0x3F800000⟩ ⟨0x40000000⟩ := by
    unfold SoloRows
    decide +kernel
  obtain ⟨s, hs, -⟩ := exists_soloSample hrows
  exact ⟨s, hload, hs, sample_of_settings hload hs⟩

end TreeCorpus
