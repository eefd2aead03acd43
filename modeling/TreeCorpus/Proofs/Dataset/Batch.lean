import TreeCorpus.Dataset.Sample
import TreeCorpus.Disk.Edit
import TreeCorpus.Proofs.Catalog.Domain

/-!
# Batches

A batch has one entry for each index of its range, in order, and the entry says what building that
sample alone says (`IsBatch`). Building looks at the files of its solution only, so the entry of an
index is the same on any two disks that agree on those (`buildIsolated_congr`), and adjacent ranges
concatenate (`buildRange_exact`).
-/

namespace TreeCorpus

/-- Both disks show the same at each of the paths. -/
def Disk.AgreeOn (d d' : Disk) (paths : List String) : Prop := ∀ p ∈ paths, d.item? p = d'.item? p

instance (d d' : Disk) (paths : List String) : Decidable (d.AgreeOn d' paths) :=
  inferInstanceAs (Decidable (∀ p ∈ paths, d.item? p = d'.item? p))

/-! ## Reading from disks that agree -/

namespace Disk

variable {d d' : Disk} {path : String}

theorem isFile_congr (h : d.item? path = d'.item? path) : d.isFile path = d'.isFile path := by
  unfold isFile
  rw [h]

theorem readText_congr (h : d.item? path = d'.item? path) : d.readText path = d'.readText path := by
  unfold readText readContent
  rw [h]

theorem read_congr (h : d.item? path = d'.item? path) : d.read path = d'.read path := by
  unfold read
  rw [readText_congr h]

end Disk

theorem FeatureTable.load_congr {d d' : Disk} {path : String} (dimension : Nat)
    (h : d.item? path = d'.item? path) :
    FeatureTable.load d path dimension = FeatureTable.load d' path dimension := by
  unfold load
  rw [Disk.read_congr h]

theorem Graph.buildFile_congr {d d' : Disk} {path : String} (table : FeatureTable)
    (dimension : Nat) (h : d.item? path = d'.item? path) :
    Graph.buildFile d path table dimension = Graph.buildFile d' path table dimension := by
  unfold Graph.buildFile
  rw [Disk.read_congr h]

namespace Dataset

variable {a : Dataset} {d d' : Disk} {i start stop : Nat}

/-- The files that the sample of a solution is built from: its edge list and, unless one table is
shared, the table beside it. -/
def sourceFiles (a : Dataset) (s : Solution) : List String :=
  match a.shared with
  | some _ => [s.path]
  | none => [s.path, Path.withExtension s.path a.sidecarExtension]

theorem buildGraph_congr {s : Solution} (h : d.AgreeOn d' (a.sourceFiles s)) :
    a.buildGraph d s = a.buildGraph d' s := by
  unfold sourceFiles at h
  unfold buildGraph
  cases hs : a.shared with
  | some table =>
    rw [hs] at h
    exact Graph.buildFile_congr table a.dimension (h _ (List.mem_singleton_self _))
  | none =>
    rw [hs] at h
    have hedges := h s.path List.mem_cons_self
    have htable := h _ (List.mem_cons_of_mem _ (List.mem_singleton_self _))
    simp only [Graph.buildWithSidecar, Disk.isFile_congr hedges,
      FeatureTable.load_congr a.dimension htable]
    split
    · split
      · exact Graph.buildFile_congr _ a.dimension hedges
      · rfl
    · rfl

/-- The outcome of an index depends on the files of its solution only. -/
theorem buildIsolated_congr
    (h : ∀ s, a.index.resolve i = .ok s → d.AgreeOn d' (a.sourceFiles s)) :
    a.buildIsolated d i = a.buildIsolated d' i := by
  unfold buildIsolated
  cases hr : a.index.resolve i with
  | error e => rfl
  | ok s =>
    simp only [buildSolution, buildGraph_congr (h s hr)]

/-! ## One entry -/

/-- The entry of an index: the sample that building it alone gives, or its error together with the
solution, if the index has one. -/
structure IsEntry (a : Dataset) (d : Disk) (i : Nat) (e : Except SampleFailure Sample) :
    Prop where
  ok_iff : ∀ s, e = .ok s ↔ a.buildSample d i = .ok s
  error_iff : ∀ f, e = .error f ↔
    f.index = i ∧ a.buildSample d i = .error f.cause ∧
      ∀ s, f.solution = some s ↔ a.index.resolve i = .ok s
  solution_isSome_iff : ∀ f, e = .error f → (f.solution.isSome ↔ i < a.size)

/-- What a failure keeps of its index. -/
theorem buildIsolated_eq (a : Dataset) (d : Disk) (i : Nat) :
    a.buildIsolated d i =
      (a.buildSample d i).mapError (⟨i, (a.index.resolve i).toOption, ·⟩) := by
  unfold buildIsolated buildSample
  cases a.index.resolve i <;> rfl

theorem isEntry_buildIsolated (ha : a.index.Formed) (d : Disk) (i : Nat) :
    a.IsEntry d i (a.buildIsolated d i) := by
  have hsome (s : Solution) :
      (a.index.resolve i).toOption = some s ↔ a.index.resolve i = .ok s := by
    cases a.index.resolve i <;> simp [Except.toOption]
  rw [buildIsolated_eq]
  refine ⟨fun s => ?_, fun f => ?_, fun f hf => ?_⟩
  · cases a.buildSample d i <;> simp [Except.mapError]
  · cases a.buildSample d i with
    | ok s => simp [Except.mapError]
    | error e =>
      simp only [Except.mapError, Except.error.injEq]
      constructor
      · rintro rfl
        exact ⟨rfl, rfl, hsome⟩
      · rintro ⟨rfl, rfl, hs⟩
        have hsol : f.solution = (a.index.resolve f.index).toOption :=
          Option.ext fun s => (hs s).trans (hsome s).symm
        rw [← hsol]
  · cases hb : a.buildSample d i with
    | ok s =>
      rw [hb] at hf
      exact absurd hf (by simp [Except.mapError])
    | error e =>
      rw [hb] at hf
      obtain rfl := Except.error.inj hf
      rw [show a.size = a.index.total from rfl, ← ha.exists_resolve_iff,
        Option.isSome_iff_exists]
      exact exists_congr hsome

/-! ## Ranges -/

/-- One entry for each index from `start` up to but not including `stop`, in ascending order. -/
structure IsBatch (a : Dataset) (d : Disk) (start stop : Nat)
    (results : List (Nat × Except SampleFailure Sample)) : Prop where
  ascending : (results.map Prod.fst).Pairwise (· < ·)
  mem_iff : ∀ i, i ∈ results.map Prod.fst ↔ start ≤ i ∧ i < stop
  isEntry : ∀ i e, (i, e) ∈ results → a.IsEntry d i e

theorem map_fst_buildRange (a : Dataset) (d : Disk) (start stop : Nat) :
    (a.buildRange d start stop).results.map Prod.fst = List.range' start (stop - start) := by
  unfold buildRange
  rw [List.map_map]
  exact List.map_id _

theorem mem_buildRange_iff {e : Except SampleFailure Sample} :
    (i, e) ∈ (a.buildRange d start stop).results ↔
      (start ≤ i ∧ i < stop) ∧ e = a.buildIsolated d i := by
  unfold buildRange
  simp only [List.mem_map, List.mem_range'_1, Prod.mk.injEq]
  constructor
  · rintro ⟨j, hj, rfl, rfl⟩
    exact ⟨by omega, rfl⟩
  · rintro ⟨hi, rfl⟩
    exact ⟨i, by omega, rfl, rfl⟩

theorem isBatch_buildRange (ha : a.index.Formed) (d : Disk) (start stop : Nat) :
    a.IsBatch d start stop (a.buildRange d start stop).results where
  ascending := by
    rw [map_fst_buildRange]
    exact List.pairwise_lt_range'
  mem_iff i := by
    rw [map_fst_buildRange, List.mem_range'_1]
    omega
  isEntry i e he := by
    obtain ⟨-, rfl⟩ := mem_buildRange_iff.1 he
    exact isEntry_buildIsolated ha d i

theorem results_buildRange_append {x y z : Nat} (hxy : x ≤ y) (hyz : y ≤ z) :
    (a.buildRange d x y).results ++ (a.buildRange d y z).results =
      (a.buildRange d x z).results := by
  unfold buildRange
  rw [← List.map_append]
  congr 1
  have h := List.range'_append_1 (s := x) (m := y - x) (n := z - y)
  rw [show x + (y - x) = y by omega, show y - x + (z - y) = z - x by omega] at h
  exact h

/-- A batch holds what building each sample alone gives, its parts are the batches of the parts of
its range, and the entry of an index does not depend on the files of other indexes. -/
theorem buildRange_exact (a : Dataset) (ha : a.index.Formed) :
    (∀ d start stop, a.IsBatch d start stop (a.buildRange d start stop).results) ∧
    (∀ d x y z, x ≤ y → y ≤ z →
      (a.buildRange d x y).results ++ (a.buildRange d y z).results =
        (a.buildRange d x z).results) ∧
    ∀ d d' start stop i e,
      (∀ s, a.index.resolve i = .ok s → d.AgreeOn d' (a.sourceFiles s)) →
      ((i, e) ∈ (a.buildRange d start stop).results ↔
        (i, e) ∈ (a.buildRange d' start stop).results) := by
  refine ⟨fun d start stop => isBatch_buildRange ha d start stop, ?_, ?_⟩
  · intro d x y z hxy hyz
    exact results_buildRange_append hxy hyz
  · intro d d' start stop i e h
    rw [mem_buildRange_iff, mem_buildRange_iff, buildIsolated_congr h]

/-- The first sample does not notice that the second one gets an edge list. -/
theorem buildRange_exact_two_files :
    let a : Dataset := ⟨.ofCatalog (.ofCounts "r" "edges" [("a", 1), ("b", 1)]) {}, 1, "features",
      none⟩
    let d := (Disk.empty.store "r/a/a-1.edges" (.text "p c")).store "r/a/a-1.features"
      (.text "p: 1\nc: 2")
    let d' := d.store "r/b/b-1.edges" (.text "q q")
    a.index.Formed ∧ (∀ s, a.index.resolve 0 = .ok s → d.AgreeOn d' (a.sourceFiles s)) ∧
      a.IsBatch d 0 2 (a.buildRange d 0 2).results ∧
      (a.buildRange d 0 1).results ++ (a.buildRange d 1 2).results =
        (a.buildRange d 0 2).results ∧
      ∀ e, (0, e) ∈ (a.buildRange d 0 2).results ↔ (0, e) ∈ (a.buildRange d' 0 2).results := by
  intro a d d'
  have ha : a.index.Formed := ⟨.ofCounts "r" "edges" [("a", 1), ("b", 1)], {}, rfl⟩
  have hr : a.index.resolve 0 = .ok ⟨⟨"a", 0⟩, 1, "r/a/a-1.edges"⟩ := by decide +kernel
  have hagree : ∀ s, a.index.resolve 0 = .ok s → d.AgreeOn d' (a.sourceFiles s) := by
    intro s hs
    obtain rfl := Except.ok.inj (hr.symm.trans hs)
    decide +kernel
  obtain ⟨hbatch, happend, hisolated⟩ := buildRange_exact a ha
  exact ⟨ha, hagree, hbatch d 0 2, happend d 0 1 2 (by decide) (by decide),
    fun e => hisolated d d' 0 2 0 e hagree⟩

end Dataset

end TreeCorpus
