import TreeCorpus.Command.Basic
import TreeCorpus.Console.Report
import TreeCorpus.Dataset.Record
import TreeCorpus.Graph.Layout
import TreeCorpus.Inference.Engine
import TreeCorpus.Settings.File

/-!
# Running commands

A command runs on a disk and leaves the lines it printed, the disk afterwards, and its exit code or
the failure that ended it. Lines printed before a failure stay. A command that is stopped by an
overflow (`execute?`) leaves none of this; `execute` is the run in which sums and products wrap.
-/

namespace TreeCorpus

open Number Ranking Console

namespace Command

inductive Failure where
  | settingsExist
  | startPastEnd (start stop : Nat)
  | noFeatureTable
  | noModel
  | badScore (word : String)
  | library (cause : Error)
  | writing (path : String) (cause : Error)
  deriving DecidableEq, Repr

namespace Failure

def message : Failure → String
  | settingsExist => s!"{settingsFile} already exists (use --force to overwrite)"
  | startPastEnd start stop => s!"--start {start} is past the end of the range ({stop})"
  | noFeatureTable => "no feature table: pass --features or set features.table"
  | noModel => "no model: pass --model or set inference.model"
  | badScore word => s!"invalid score '{word}': invalid float literal"
  | library cause => cause.message
  | writing path cause => s!"writing {path}: {cause.message}"

/-- The error of the library behind the failure. -/
def cause? : Failure → Option Error
  | library cause | writing _ cause => some cause
  | _ => none

def exitCode (f : Failure) : ExitCode := (f.cause?.map Error.exitCode).getD .failure

end Failure

structure Outcome where
  lines : List String
  disk : Disk
  result : Except Failure ExitCode

namespace Outcome

def failed (d : Disk) (f : Failure) : Outcome := ⟨[], d, .error f⟩

def printed (d : Disk) (lines : List String) : Outcome := ⟨lines, d, .ok .success⟩

/-- The lines of a result, or the error in its place. -/
def ofLines (d : Disk) : Except Error (List String) → Outcome
  | .ok lines => printed d lines
  | .error e => failed d (.library e)

end Outcome

/-! ## The commands -/

def runInit (colors : Bool) (d : Disk) (force : Bool) : Outcome :=
  if d.pathExists settingsFile && !force then .failed d .settingsExist
  else match Config.save d settingsFile Config.default with
    | .error e => .failed d (.library e)
    | .ok d' => .printed d' [(bright .green).paint colors s!"[OK] Wrote {settingsFile}"]

def runCatalog (colors : Bool) (d : Disk) (c : Config) : Outcome :=
  .ofLines d ((SampleIndex.load d c.catalog).map (catalogLines colors))

def runCheck (colors : Bool) (d : Disk) (c : Config) : Outcome :=
  match Catalog.load d c.catalog with
  | .error e => .failed d (.library e)
  | .ok found =>
    ⟨gapLines colors found.gaps, d,
      .ok (if found.gaps.isEmpty then .success else .invalidInput)⟩

def resolvedLines (colors : Bool) (x : SampleIndex) (index : Nat) : Except Error (List String) :=
  (x.resolve index).map fun s => [solutionLine colors index s]

def runResolve (colors : Bool) (d : Disk) (c : Config) (index : Nat) : Outcome :=
  .ofLines d (do resolvedLines colors (← SampleIndex.load d c.catalog) index)

def runLocate (colors : Bool) (d : Disk) (c : Config) (category : String) (number : Nat) :
    Outcome :=
  .ofLines d do
    let x ← SampleIndex.load d c.catalog
    resolvedLines colors x (← x.locate category number)

def runSample (colors : Bool) (d : Disk) (c : Config) (index : Nat) : Outcome :=
  .ofLines d do
    let a ← Dataset.load d c
    return sampleLines colors (← a.buildSample d index)

def batchExit (r : BatchReport) : ExitCode :=
  if r.failures.isEmpty then .success else .partialFailure

/-- Builds a range of samples and writes those that were built if a file is named. The end of the
range is cut to the size of the dataset. -/
def runBuild (colors : Bool) (d : Disk) (c : Config) (start : Nat) (stop : Option Nat)
    (output : Option String) : Outcome :=
  match Dataset.load d c with
  | .error e => .failed d (.library e)
  | .ok a =>
    let stop := min (stop.getD a.size) a.size
    if stop < start then .failed d (.startPastEnd start stop)
    else
      let report := a.buildRange d start stop
      let lines := batchLines colors report
      match output with
      | none => ⟨lines, d, .ok (batchExit report)⟩
      | some path => match Record.save d path report.samples with
        -- the report is printed before the file is written
        | .error e => ⟨lines, d, .error (.writing path e)⟩
        | .ok (d', n) =>
          ⟨lines ++ [s!"Saved {n} samples to {path}"], d', .ok (batchExit report)⟩

def targetGraph (d : Disk) (c : Config) : LayoutTarget → Except Error Graph
  | .edges text => Graph.parse text Graph.inlineOrigin
  | .sample index => do
    let a ← Dataset.load d c
    return (← a.buildSample d index).graph

def placementJson (p : Placement Double) : Json :=
  let coordinate (x : Double) : Json := .ofNumberText x.text?
  .ofMembers [("x", coordinate p.x), ("y", coordinate p.y), ("left", coordinate p.left),
    ("right", coordinate p.right), ("depth", .ofNat p.depth)]

def layoutJson (l : Layout Double) : Json :=
  .ofMembers
    [("entries", .array (l.entries.map fun e => .array [.ofString e.1, placementJson e.2]))]

/-- Lays out a graph, with measures from the settings unless others are given. -/
def runLayout (d : Disk) (c : Config) (target : LayoutTarget) (root : Option String)
    (width levelGap : Option Double) : Outcome :=
  .ofLines d do
    let g ← targetGraph d c target
    let m : LayoutMeasures Double :=
      ⟨width.getD c.layout.width, levelGap.getD c.layout.levelGap⟩
    let l ← (g.layout m root).mapError .notATree
    return [(layoutJson l).pretty]

/-- Classifies an edge list. The feature table and the model are those given, or else those of the
settings. -/
def runClassify (colors : Bool) (d : Disk) (c : Config) (edges : String)
    (features model : Option String) (k : Option Nat) : Outcome :=
  match features.or c.features.table, model.or c.inference.model with
  | none, _ => .failed d .noFeatureTable
  | _, none => .failed d .noModel
  | some features, some model =>
    .ofLines d do
      let table ← FeatureTable.load d features c.features.dimension
      let head ← LinearHead.load d model
      let found ← Catalog.load d c.catalog
      let engine : Engine :=
        ⟨c.features.dimension, head.classifier, found.names, k.getD c.inference.topK⟩
      return predictionLines colors (← engine.classify edges table)

/-- The words between the commas of a score list, blanks at their ends removed. -/
def scoreWords (text : String) : List String :=
  ((Text.pieces (· == ',') text.toList).map fun w => Text.trim (String.ofList w)).filter
    (!·.isEmpty)

/-- The scores of some words, or the first word that is none. -/
def readScores : List String → Except Failure (List Single)
  | [] => .ok []
  | w :: ws => match Binary.ofText? w with
    | none => .error (.badScore w)
    | some x => (readScores ws).map (x :: ·)

def runRank (colors : Bool) (d : Disk) (c : Config) (scores : String) (k : Option Nat) :
    Outcome :=
  match readScores (scoreWords scores) with
  | .error f => .failed d f
  | .ok scores =>
    .ofLines d do
      let found ← Catalog.load d c.catalog
      return predictionLines colors (← Ranking.rank scores (k.getD c.inference.topK) found.names)

def output? : Command → Option String
  | .init _ => some settingsFile
  | .build _ _ output => output
  | _ => none

/-- The files besides the catalog that a command reads with the given settings. -/
def files (c : Config) (i : Command) : List String :=
  i.inputs ++ c.features.table.toList ++ c.inference.model.toList

def execute (colors : Bool) (d : Disk) (c : Config) : Command → Outcome
  | .init force => runInit colors d force
  | .catalog => runCatalog colors d c
  | .check => runCheck colors d c
  | .resolve index => runResolve colors d c index
  | .locate category number => runLocate colors d c category number
  | .sample index => runSample colors d c index
  | .build start stop output => runBuild colors d c start stop output
  | .layout target root width levelGap => runLayout d c target root width levelGap
  | .classify edges features model k => runClassify colors d c edges features model k
  | .rank scores k => runRank colors d c scores k

/-! ## Overflows -/

/-- The largest number taken by what uses the index of the settings, setting it up included. -/
def indexPeak (d : Disk) (s : CatalogSettings) (peak : SampleIndex → Nat) : Nat :=
  match SampleIndex.load d s with
  | .error _ => 0
  | .ok x => max x.setupPeak (peak x)

/-- A sample takes the total of its dataset, once that is loaded. -/
def datasetPeak (d : Disk) (c : Config) : Nat :=
  indexPeak d c.catalog fun x => match Dataset.load d c with
    | .error _ => 0
    | .ok _ => x.totalPeak

/-- The largest sum or product of sizes that a command takes. The others number no solutions. -/
def peak (d : Disk) (c : Config) : Command → Nat
  | .catalog | .resolve _ => indexPeak d c.catalog SampleIndex.totalPeak
  | .locate category number =>
    indexPeak d c.catalog fun x => match x.locate category number with
      | .error _ => x.locatePeak category number
      | .ok _ => max (x.locatePeak category number) x.totalPeak
  | .sample _ | .build .. | .layout (.sample _) .. => datasetPeak d c
  | .init _ | .check | .layout (.edges _) .. | .classify .. | .rank .. => 0

def execute? (o : Overflow) (colors : Bool) (d : Disk) (c : Config) (i : Command) :
    Option Outcome :=
  o.checked (i.peak d c) (execute colors d c i)

end Command

namespace Invocation

/-- The settings of a call. Writing the default settings needs none. -/
def settings (d : Disk) (i : Invocation) : Except Error Config :=
  match i.command, i.config with
  | .init _, _ => .ok Config.default
  | _, some path => Config.loadFile d path
  | _, none => Config.load d

def run (colors : Bool) (d : Disk) (i : Invocation) : Command.Outcome :=
  match i.settings d with
  | .error e => .failed d (.library e)
  | .ok c => Command.execute colors d c i.command

def run? (o : Overflow) (colors : Bool) (d : Disk) (i : Invocation) : Option Command.Outcome :=
  match i.settings d with
  | .error e => some (.failed d (.library e))
  | .ok c => Command.execute? o colors d c i.command

end Invocation

end TreeCorpus
