import TreeCorpus.Console.Style
import TreeCorpus.Dataset.Sample
import TreeCorpus.Graph.Stats
import TreeCorpus.Ranking.Ranked

/-!
# Reports

The lines that are printed for catalogs, solutions, samples, batches, rankings and gaps. A batch
shows the first failures of each kind in full, in the order of its results, and only counts the
rest.
-/

namespace TreeCorpus.Console

open Number Ranking

/-- The word for a number of things: itself for one, else its plural. -/
def pluralize (word : String) (n : Nat) : String :=
  if n = 1 then word
  else match word.toList.reverse with
    | 'y' :: stem => String.ofList stem.reverse ++ "ies"
    | _ => word ++ "s"

def counted (word : String) (n : Nat) : String := s!"{n} {pluralize word n}"

def alignRight (width : Nat) (s : String) : String :=
  String.ofList (List.replicate (width - s.length) ' ') ++ s

def alignLeft (width : Nat) (s : String) : String :=
  s ++ String.ofList (List.replicate (width - s.length) ' ')

def catalogLines (colors : Bool) (x : SampleIndex) : List String :=
  let c := x.catalog
  let categories := counted "category" c.size
  let samples := counted "sample" x.total
  [strong.paint colors "catalog:" ++ s!" {c.root}"] ++
  (c.categories.zip c.counts).map (fun e =>
    s!"  {alignRight 4 (toString e.1.ordinal)}  {alignLeft 50 e.1.name} {e.2}") ++
  [strong.paint colors "total:" ++ s!" {categories}, {samples}"]

def solutionLine (colors : Bool) (index : Nat) (s : Solution) : String :=
  let name := (plain .cyan).paint colors s.category.name
  s!"{index} -> {name} #{s.number} ({s.path})"

def rule (colors : Bool) : String := faint.paint colors "=========================="

def sampleLines (colors : Bool) (s : Sample) : List String :=
  let t := s.graph.stats
  [rule colors, solutionLine colors s.index s.solution,
    s!"Number of nodes: {t.nodes}", s!"Number of edges: {t.edges}",
    s!"Average node degree: {t.averageDegree.fixed 2}",
    s!"Has isolated nodes: {decide (0 < t.isolatedNodes)}",
    s!"Has self-loops: {decide (0 < t.selfLoops)}", s!"Leaves: {t.leaves}"] ++
  (t.depth.map fun n => s!"Depth: {n}").toList ++
  [s!"Feature dimension: {t.featureDimension}",
    s!"Label ordinal: {s.solution.category.ordinal}", rule colors]

/-! ## Batches -/

def shownPerKind : Nat := 5

/-- The failures of which fewer than `limit` of their kind come before. `seen` holds the kinds of
those shown before. -/
def shownFrom (limit : Nat) (seen : List String) : List SampleFailure → List SampleFailure
  | [] => []
  | f :: fs =>
    if seen.count f.cause.kind < limit then f :: shownFrom limit (f.cause.kind :: seen) fs
    else shownFrom limit seen fs

/-- Failures are shown in the order of the results. -/
theorem shownFrom_sublist (limit : Nat) (seen : List String) (fs : List SampleFailure) :
    (shownFrom limit seen fs).Sublist fs := by
  induction fs generalizing seen with
  | nil => exact List.Sublist.refl _
  | cons f fs ih =>
    rw [shownFrom]
    split
    · exact (ih _).cons_cons f
    · exact (ih _).cons f

def shownFailures (fs : List SampleFailure) : List SampleFailure := shownFrom shownPerKind [] fs

/-- How many failures of each kind are not shown, for the kinds that have such. -/
def hiddenCounts (r : BatchReport) : List (String × Nat) :=
  r.tally.filterMap fun e => if shownPerKind < e.2 then some (e.1, e.2 - shownPerKind) else none

def failureLine (colors : Bool) (f : SampleFailure) : String :=
  (plain .yellow).paint colors "[SKIP]" ++ s!" {f.message}"

def hiddenLine (colors : Bool) (kind : String) (n : Nat) : String :=
  "  " ++ faint.paint colors "..." ++ s!" {n} more {kind} " ++ pluralize "failure" n

/-- The lines at the end of a batch: how much was built, and how many failures of each kind there
were. -/
def summaryLines (colors : Bool) (r : BatchReport) : List String :=
  let built := counted "sample" r.samples.length
  let failed := counted "failure" r.failures.length
  if r.failures.isEmpty then [(bright .green).paint colors s!"[OK] Built {built}."]
  else
    (bright .yellow).paint colors s!"[WARN] Built {built}, {failed}." ::
    r.tally.map fun e => s!"  {e.1}: {e.2}"

def batchLines (colors : Bool) (r : BatchReport) : List String :=
  (shownFailures r.failures).map (failureLine colors) ++
  (hiddenCounts r).map (fun e => hiddenLine colors e.1 e.2) ++
  summaryLines colors r

/-! ## Rankings and gaps -/

/-- The lines of a ranking, the first one emphasized. -/
def predictionLines (colors : Bool) (ps : List (Prediction Single Double)) : List String :=
  match rankingLines ps with
  | [] => []
  | top :: rest => (bright .green).paint colors top :: rest

def shownNumbers : Nat := 10

/-- The first of some numbers, and how many there are if not all are listed. -/
def numberList (ns : List Nat) : String :=
  String.intercalate ", " ((ns.take shownNumbers).map toString ++
    if shownNumbers < ns.length then [s!"... ({ns.length} total)"] else [])

def gapLines (colors : Bool) (gaps : List Gap) : List String :=
  if gaps.isEmpty then [(bright .green).paint colors "[OK] Solution numbering is contiguous."]
  else gaps.map fun g =>
    (bright .red).paint colors "[GAP]" ++ s!" {g.category}: missing {numberList g.missing}"

end TreeCorpus.Console
