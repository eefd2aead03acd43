import TreeCorpus.Dataset.Sample
import TreeCorpus.Disk.Lines
import TreeCorpus.Graph.Tensors
import TreeCorpus.Json.Decode
import TreeCorpus.Number.Shortest

/-!
# Records

A record is a sample as it is written to a file: one JSON object a line. Feature values that are
not finite are written as null, which is no number when it is read. Reading skips lines that hold
only blanks; the first line that holds no record is the error.
-/

namespace TreeCorpus

open Number

/-- A sample without its graph structure: node names, feature rows and edges by position. -/
structure Record where
  index : Nat
  category : String
  number : Nat
  path : String
  /-- The node names, in the order of the rows. -/
  nodes : List String
  rows : List (List Single)
  sources : List Nat
  targets : List Nat
  label : List UInt8
  deriving DecidableEq

namespace Record

def ofSample (s : Sample) : Record :=
  let t := Tensors.ofGraph s.graph
  { index := s.index
    category := s.solution.category.name
    number := s.solution.number
    path := s.solution.path
    nodes := s.graph.nodes.toList.map Node.id
    rows := t.rows
    sources := t.sources
    targets := t.targets
    label := s.label }

def fieldNames : List String :=
  ["index", "category", "number", "path", "nodes", "x", "edge_index", "y"]

def jsonOfSingle (x : Single) : Json := Json.ofNumberText x.text?

def fieldValues (r : Record) : List Json :=
  let sizes (ns : List Nat) : Json := .array (ns.map Json.ofNat)
  [.ofNat r.index, .ofString r.category, .ofNat r.number, .ofString r.path,
    .array (r.nodes.map Json.ofString),
    .array (r.rows.map fun row => .array (row.map jsonOfSingle)),
    .array [sizes r.sources, sizes r.targets],
    sizes (r.label.map UInt8.toNat)]

def toJson (r : Record) : Json := .ofMembers (fieldNames.zip r.fieldValues)

def line (r : Record) : String := r.toJson.write

/-- The record with the given fields, in order. -/
def ofFieldValues? : List Json → Option Record
  | [index, category, number, path, nodes, rows, edges, label] => do
    let (sources, targets) ← edges.pair? (Json.list? Json.size?)
    return {
      index := ← index.size?
      category := ← category.text?
      number := ← number.size?
      path := ← path.text?
      nodes := ← nodes.list? Json.text?
      rows := ← rows.list? (Json.list? Json.single?)
      sources
      targets
      label := ← label.list? Json.byte? }
  | _ => none

def ofLine? (s : String) : Option Record := do
  let v ← Json.ofText? s
  let values ← v.fields? fieldNames
  ofFieldValues? values

def text (rs : List Record) : String := String.join (rs.map fun r => r.line ++ "\n")

def readLines (path : String) : List (Option String) → Except Error (List Record)
  | [] => .ok []
  | none :: _ => .error (.disk path .notText)
  | some line :: rest =>
    if (Text.trim line).isEmpty then readLines path rest
    else match ofLine? line with
      | none => .error .json
      | some r => (readLines path rest).map (r :: ·)

def load (d : Disk) (path : String) : Except Error (List Record) :=
  match d.readContent path with
  | .error fault => .error (.ofDisk path fault)
  | .ok content => readLines path content.lines

/-- Writes the records of some samples to a file, and says how many there are. -/
def save (d : Disk) (path : String) (samples : List Sample) : Except Error (Disk × Nat) :=
  match d.writeText path (text (samples.map ofSample)) with
  | .error fault => .error (.ofDisk path fault)
  | .ok d' => .ok (d', samples.length)

end Record

end TreeCorpus
