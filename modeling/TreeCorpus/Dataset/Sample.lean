import TreeCorpus.Catalog.Index
import TreeCorpus.Graph.Annotated
import TreeCorpus.Label

/-!
# Samples

A sample is the annotated tree of a solution with the label of its category. The feature vectors
come from one shared table or from the table beside each solution. A batch builds a range of
indexes and keeps a failure in place of each sample that cannot be built.
-/

namespace TreeCorpus

structure Sample where
  index : Nat
  solution : Solution
  graph : Graph
  label : List UInt8

structure SampleFailure where
  index : Nat
  /-- None when the index itself has no solution. -/
  solution : Option Solution
  cause : Error
  deriving DecidableEq, Repr

def SampleFailure.message (f : SampleFailure) : String :=
  match f.solution with
  | some s => s!"index {f.index} ({s.category.name} #{s.number}, {s.path}): {f.cause.message}"
  | none => s!"index {f.index}: {f.cause.message}"

/-- The outcomes of a batch, each with its index. -/
structure BatchReport where
  results : List (Nat × Except SampleFailure Sample)

structure Dataset where
  index : SampleIndex
  dimension : Nat
  sidecarExtension : String
  shared : Option FeatureTable

namespace Dataset

/-- The dataset of the settings. The catalog is scanned before the shared table is read. -/
def load (d : Disk) (c : Config) : Except Error Dataset :=
  match SampleIndex.load d c.catalog with
  | .error e => .error e
  | .ok index =>
    let plain : Dataset := ⟨index, c.features.dimension, c.features.sidecarExtension, none⟩
    match c.features.table with
    | none => .ok plain
    | some path =>
      -- all rows of the table have the dimension of the settings
      (FeatureTable.load d path c.features.dimension).map fun t => { plain with shared := some t }

def size (a : Dataset) : Nat := a.index.total

def buildGraph (a : Dataset) (d : Disk) (s : Solution) : Except Error Graph :=
  match a.shared with
  | some table => Graph.buildFile d s.path table a.dimension
  | none => Graph.buildWithSidecar d s.path a.sidecarExtension a.dimension

def buildSolution (a : Dataset) (d : Disk) (index : Nat) (s : Solution) : Except Error Sample :=
  match a.buildGraph d s with
  | .error e => .error e
  | .ok g => match g.treeRoot with
    | .error v => .error (.notATree v)
    | .ok _ => (Label.encode s.category.ordinal a.index.catalog.size).map (⟨index, s, g, ·⟩)

def buildSample (a : Dataset) (d : Disk) (index : Nat) : Except Error Sample :=
  match a.index.resolve index with
  | .error e => .error e
  | .ok s => a.buildSolution d index s

/-- The sample of an index, or its failure. -/
def buildIsolated (a : Dataset) (d : Disk) (index : Nat) : Except SampleFailure Sample :=
  match a.index.resolve index with
  | .error e => .error ⟨index, none, e⟩
  | .ok s => (a.buildSolution d index s).mapError (⟨index, some s, ·⟩)

/-- The outcomes of the indexes from `start` up to but not including `stop`. -/
def buildRange (a : Dataset) (d : Disk) (start stop : Nat) : BatchReport :=
  ⟨(List.range' start (stop - start)).map fun i => (i, a.buildIsolated d i)⟩

def buildAll (a : Dataset) (d : Disk) : BatchReport := a.buildRange d 0 a.size

/-! ### Overflows -/

variable (o : Number.Overflow)

def load? (d : Disk) (c : Config) : Option (Except Error Dataset) :=
  (SampleIndex.load? o d c.catalog).map fun _ => load d c

def size? (a : Dataset) : Option Nat := a.index.total? o

def buildSample? (a : Dataset) (d : Disk) (index : Nat) : Option (Except Error Sample) :=
  o.checked a.index.totalPeak (a.buildSample d index)

/-- The outcomes of a range. Every index of it is resolved, so an empty one needs no total. -/
def buildRange? (a : Dataset) (d : Disk) (start stop : Nat) : Option BatchReport :=
  o.checked (if start < stop then a.index.totalPeak else 0) (a.buildRange d start stop)

def buildAll? (a : Dataset) (d : Disk) : Option BatchReport :=
  o.checked a.index.totalPeak (a.buildAll d)

end Dataset

/-- Adds one to the count of a label, in a list in the order of the labels. -/
def tallyInsert (kind : String) : List (String × Nat) → List (String × Nat)
  | [] => [(kind, 1)]
  | (k, n) :: rest =>
    if kind = k then (k, n + 1) :: rest
    else if kind < k then (kind, 1) :: (k, n) :: rest
    else (k, n) :: tallyInsert kind rest

namespace BatchReport

def samples (r : BatchReport) : List Sample :=
  r.results.filterMap fun e => match e.2 with
    | .ok s => some s
    | .error _ => none

def failures (r : BatchReport) : List SampleFailure :=
  r.results.filterMap fun e => match e.2 with
    | .ok _ => none
    | .error f => some f

/-- Every result is a sample or a failure. -/
theorem length_samples_add_length_failures (r : BatchReport) :
    r.samples.length + r.failures.length = r.results.length := by
  obtain ⟨results⟩ := r
  unfold samples failures
  induction results with
  | nil => rfl
  | cons e es ih =>
    obtain ⟨i, s | f⟩ := e
    · simp only [List.filterMap_cons, List.length_cons] at ih ⊢
      omega
    · simp only [List.filterMap_cons, List.length_cons] at ih ⊢
      omega

def parts (r : BatchReport) : List Sample × List SampleFailure :=
  r.results.foldr (fun e p => match e.2 with
    | .ok s => (s :: p.1, p.2)
    | .error f => (p.1, f :: p.2)) ([], [])

/-- How many failures there are of each kind, in the order of the kinds. -/
def tally (r : BatchReport) : List (String × Nat) :=
  r.failures.foldl (fun t f => tallyInsert f.cause.kind t) []

end BatchReport

end TreeCorpus
