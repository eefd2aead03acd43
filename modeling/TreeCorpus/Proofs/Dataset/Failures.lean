import TreeCorpus.Proofs.Catalog.Pages
import TreeCorpus.Proofs.Dataset.Batch
import TreeCorpus.Proofs.Dataset.Sample
import TreeCorpus.Proofs.Graph.FeatureTable

/-!
# Failures of a batch

Each stage of building a sample fails for reasons of its own kinds (`FailsWith`). A batch runs over
the indexes below the total of its dataset; all of these resolve, also where the total has wrapped,
and to categories that have a label. So its failures are of the kinds that reading the files of a
solution, annotating its graph and testing the tree have, and carry their solution; a shared table
was read with the dataset, and cannot fail any more (`failures_of_settings`).
-/

namespace TreeCorpus

/-- The outcome is a value, or an error of one of the kinds. -/
def FailsWith {α : Type} (kinds : List String) (x : Except Error α) : Prop :=
  ∀ e, x = .error e → e.kind ∈ kinds

namespace FailsWith

variable {α : Type} {kinds kinds' : List String} {x : Except Error α} {e : Error}

theorem ok (a : α) : FailsWith kinds (.ok a) := fun _ h => nomatch h

theorem error (h : e.kind ∈ kinds) : FailsWith kinds (.error e : Except Error α) := by
  intro e' he'
  rwa [← Except.error.inj he']

theorem mono (h : FailsWith kinds x) (hkinds : kinds ⊆ kinds') : FailsWith kinds' x :=
  fun e he => hkinds (h e he)

theorem mapError {ε : Type} {f : ε → Error} (hf : ∀ fault, (f fault).kind ∈ kinds)
    (x : Except ε α) : FailsWith kinds (x.mapError f) := by
  cases x with
  | ok a => exact ok a
  | error fault => exact error (hf fault)

end FailsWith

/-! ## The stages -/

/-- The kinds of errors of a file that is read. -/
def fileKinds : List String := ["file-not-found", "io"]

/-- The kinds of errors of a text that is no feature table. -/
def tableKinds : List String := ["feature-dimension", "malformed-features"]

/-- The kinds of errors that building a sample with a given table has. -/
def sampleKinds : List String := fileKinds ++ ["malformed-graph", "missing-feature", "not-a-tree"]

theorem Disk.failsWith_read (d : Disk) (path : String) : FailsWith fileKinds (d.read path) := by
  refine .mapError (fun fault => ?_) _
  cases fault with
  | notFound => exact (by decide : "file-not-found" ∈ fileKinds)
  | _ => exact (by decide : "io" ∈ fileKinds)

theorem FeatureTable.failsWith_load (d : Disk) (path : String) (dimension : Nat) :
    FailsWith (fileKinds ++ tableKinds) (FeatureTable.load d path dimension) := by
  unfold FeatureTable.load
  cases hread : d.read path with
  | error e => exact .error (List.mem_append_left _ (Disk.failsWith_read d path e hread))
  | ok text =>
    refine .mapError (fun fault => List.mem_append_right _ ?_) _
    cases fault with
    | row line fault => exact (by decide : "malformed-features" ∈ tableKinds)
    | dimension node expected found => exact (by decide : "feature-dimension" ∈ tableKinds)

namespace Graph

variable {table : FeatureTable} {dimension : Nat}

/-- Annotating fails for want of a row, or because of the length of a row. -/
theorem failsWith_annotate (g : Graph) (origin : String) :
    FailsWith ["missing-feature", "feature-dimension"] (g.annotate table dimension origin) := by
  intro e he
  obtain ⟨-, id, -, -, -, hmissing⟩ := annotate_eq_error_iff.1 he
  cases hmissing with
  | none _ => exact List.mem_cons_self
  | length _ _ => exact List.mem_cons_of_mem _ List.mem_cons_self

/-- A table of the dimension fails only for want of a row. -/
theorem failsWith_annotate_of_built (htable : table.Built) (g : Graph) (origin : String) :
    FailsWith ["missing-feature"] (g.annotate table table.dimension origin) := by
  intro e he
  obtain ⟨-, id, -, -, -, hmissing⟩ := annotate_eq_error_iff.1 he
  cases hmissing with
  | none _ => exact List.mem_cons_self
  | length hid hlength => exact absurd (htable.length_of_lookup hid) hlength

/-- With a table, building the graph of a file fails because of the file, of its text, or when the
graph is annotated. -/
theorem failsWith_buildFile {kinds : List String} (d : Disk) (path : String)
    (hfile : fileKinds ⊆ kinds) (htext : "malformed-graph" ∈ kinds)
    (hannotate : ∀ g : Graph, FailsWith kinds (g.annotate table dimension path)) :
    FailsWith kinds (buildFile d path table dimension) := by
  unfold buildFile
  cases hread : d.read path with
  | error e => exact .error (hfile (Disk.failsWith_read d path e hread))
  | ok text =>
    have hparse : FailsWith kinds (Graph.parse text path) := .mapError (fun _ => htext) _
    show FailsWith kinds (build text path table dimension)
    unfold build
    cases hgraph : Graph.parse text path with
    | error e => exact .error (hparse e hgraph)
    | ok g => exact hannotate g

theorem failsWith_buildWithSidecar (d : Disk) (path extension : String) :
    FailsWith (sampleKinds ++ tableKinds) (buildWithSidecar d path extension dimension) := by
  unfold buildWithSidecar
  split
  · cases hload : FeatureTable.load d (Path.withExtension path extension) dimension with
    | error e =>
      rcases List.mem_append.1 (FeatureTable.failsWith_load d _ _ e hload) with hkind | hkind
      · exact .error (by simp [sampleKinds, hkind])
      · exact .error (List.mem_append_right _ hkind)
    | ok table =>
      apply failsWith_buildFile d path
      · exact fun kind hkind => by simp [sampleKinds, hkind]
      · simp [sampleKinds]
      · exact fun g => (failsWith_annotate g path).mono (by simp [sampleKinds, tableKinds])
  · exact .error (by decide : "file-not-found" ∈ sampleKinds ++ tableKinds)

end Graph

namespace Dataset

variable {a : Dataset} {d : Disk} {i start stop : Nat} {f : SampleFailure} {sol : Solution}

/-- With a label for the category a solution fails because of its graph, or because that is no
tree. -/
theorem failsWith_buildSolution {kinds : List String}
    (hordinal : sol.category.ordinal < a.index.catalog.size) (htree : "not-a-tree" ∈ kinds)
    (hgraph : FailsWith kinds (a.buildGraph d sol)) :
    FailsWith kinds (a.buildSolution d i sol) := by
  obtain ⟨label, hlabel⟩ : ∃ label,
      Label.encode sol.category.ordinal a.index.catalog.size = .ok label := ⟨_, if_pos hordinal⟩
  unfold buildSolution
  cases hg : a.buildGraph d sol with
  | error e => exact .error (hgraph e hg)
  | ok g =>
    dsimp only
    cases g.treeRoot with
    | error violation => exact .error (e := .notATree violation) htree
    | ok r =>
      rw [hlabel]
      exact .ok _

/-! ## The failures of a batch -/

theorem mem_failures_buildRange_iff :
    f ∈ (a.buildRange d start stop).failures ↔
      ∃ i, (start ≤ i ∧ i < stop) ∧ a.buildIsolated d i = .error f := by
  unfold BatchReport.failures
  rw [List.mem_filterMap]
  constructor
  · rintro ⟨⟨i, e⟩, hmem, he⟩
    obtain ⟨hi, rfl⟩ := mem_buildRange_iff.1 hmem
    refine ⟨i, hi, ?_⟩
    split at he
    · exact nomatch he
    · rename_i f' hf'
      rwa [← Option.some.inj he]
  · rintro ⟨i, hi, he⟩
    refine ⟨(i, a.buildIsolated d i), mem_buildRange_iff.2 ⟨hi, rfl⟩, ?_⟩
    rw [he]

/-- A failure of an index that has a solution carries it. -/
theorem of_buildIsolated_eq_error (hresolve : a.index.resolve i = .ok sol)
    (h : a.buildIsolated d i = .error f) :
    f.index = i ∧ f.solution = some sol ∧ a.buildSolution d i sol = .error f.cause := by
  unfold buildIsolated at h
  rw [hresolve] at h
  dsimp only at h
  cases hs : a.buildSolution d i sol with
  | ok s =>
    rw [hs] at h
    exact nomatch h
  | error e =>
    rw [hs] at h
    obtain rfl := Except.error.inj h
    exact ⟨rfl, rfl, rfl⟩

/-- The shared table is the one that the settings name, as it was read with the dataset. -/
theorem shared_of_load {d₀ : Disk} {c : Config} (h : load d₀ c = .ok a) :
    a.shared = none ∧ c.features.table = none ∨
      ∃ table, a.shared = some table ∧ table.Built ∧ table.dimension = a.dimension := by
  obtain ⟨-, hdimension, -, ⟨hnone, hshared⟩ | ⟨path, table, -, ht, hshared⟩⟩ := load_eq_ok_iff.1 h
  · exact Or.inl ⟨hshared, hnone⟩
  · rw [hdimension]
    exact Or.inr ⟨table, hshared, FeatureTable.built_of_load ht⟩

/-- The kinds of errors of a graph, of which those of a table need a table beside the solution. -/
theorem failsWith_buildGraph {d₀ : Disk} {c : Config} (ha : load d₀ c = .ok a) (d : Disk)
    (sol : Solution) :
    FailsWith (sampleKinds ++ if c.features.table = none then tableKinds else [])
      (a.buildGraph d sol) := by
  unfold buildGraph
  rcases shared_of_load ha with ⟨hnone, htable⟩ | ⟨table, hsome, hbuilt, hdimension⟩
  · rw [hnone, if_pos htable]
    exact Graph.failsWith_buildWithSidecar d sol.path a.sidecarExtension
  · rw [hsome, ← hdimension]
    apply Graph.failsWith_buildFile d sol.path
    · exact fun kind hkind => by simp [sampleKinds, hkind]
    · simp [sampleKinds]
    · exact fun g => (Graph.failsWith_annotate_of_built hbuilt g sol.path).mono (by simp [sampleKinds])

/-- Every failure of a batch over all indexes carries the solution of its index and is of the kind of
a file, of an edge list, of a missing row or of a tree; or, if the settings name no table, of the
kind of a table that cannot be read. -/
theorem failures_of_settings {d₀ : Disk} {c : Config} (ha : load d₀ c = .ok a)
    (hf : f ∈ (a.buildAll d).failures) :
    (∃ sol, f.solution = some sol ∧ a.index.resolve f.index = .ok sol) ∧
      (f.cause.kind ∈
          ["file-not-found", "io", "malformed-graph", "missing-feature", "not-a-tree"] ∨
        c.features.table = none ∧ f.cause.kind ∈ ["feature-dimension", "malformed-features"]) := by
  obtain ⟨i, ⟨-, hi⟩, hfailure⟩ := mem_failures_buildRange_iff.1 hf
  obtain ⟨hformed, -, -⟩ := of_load ha
  obtain ⟨sol, hresolve, hholds, -⟩ := hformed.resolve_of_lt hi
  obtain ⟨rfl, hsolution, hcause⟩ := of_buildIsolated_eq_error hresolve hfailure
  have hordinal : sol.category.ordinal < a.index.catalog.size := by
    rw [← Catalog.category?_isSome, hholds.category?_eq]
    rfl
  have hkind := failsWith_buildSolution hordinal (by simp [sampleKinds])
    (failsWith_buildGraph ha d sol) _ hcause
  refine ⟨⟨sol, hsolution, hresolve⟩, (List.mem_append.1 hkind).imp id fun htable => ?_⟩
  by_cases hnone : c.features.table = none
  · rw [if_pos hnone] at htable
    exact ⟨hnone, htable⟩
  · rw [if_neg hnone] at htable
    exact absurd htable List.not_mem_nil

/-- The total of five huge pages has wrapped. The last index below it is one of the first category,
which has no files. -/
theorem failures_of_settings_wrapped :
    let a : Dataset := ⟨fiveIndex hugePage, 139, "features", none⟩
    let path := "r/a/a-4611686018427387904.edges"
    let f : SampleFailure :=
      ⟨hugePage - 1, some ⟨⟨"a", 0⟩, hugePage, path⟩, .fileNotFound path⟩
    load fiveDisk (fiveSettings hugePage) = .ok a ∧ a.size = hugePage ∧
      f ∈ (a.buildAll fiveDisk).failures ∧
      (∃ sol, f.solution = some sol ∧ a.index.resolve f.index = .ok sol) ∧
      (f.cause.kind ∈
          ["file-not-found", "io", "malformed-graph", "missing-feature", "not-a-tree"] ∨
        (fiveSettings hugePage).features.table = none ∧
          f.cause.kind ∈ ["feature-dimension", "malformed-features"]) := by
  intro a path f
  have hindex : SampleIndex.load fiveDisk (fiveSettings hugePage).catalog =
      .ok (fiveIndex hugePage) := by decide +kernel
  have hload : load fiveDisk (fiveSettings hugePage) = .ok a := by
    unfold load
    rw [hindex]
    rfl
  have hresolve : a.index.resolve (hugePage - 1) = .ok ⟨⟨"a", 0⟩, hugePage, path⟩ := by
    decide +kernel
  have hfile : fiveDisk.isFile path = false := by decide +kernel
  have hfailure : a.buildIsolated fiveDisk (hugePage - 1) = .error f := by
    unfold buildIsolated
    simp only [hresolve, buildSolution, buildGraph, Graph.buildWithSidecar, a, hfile]
    rfl
  have hf : f ∈ (a.buildAll fiveDisk).failures :=
    mem_failures_buildRange_iff.2 ⟨hugePage - 1, by decide +kernel, hfailure⟩
  exact ⟨hload, by decide +kernel, hf, failures_of_settings hload hf⟩

end Dataset

end TreeCorpus
