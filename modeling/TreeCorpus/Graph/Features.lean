import Std.Data.HashMap
import TreeCorpus.Number.Decimal
import TreeCorpus.Text.Blank

/-!
# Feature tables

A feature table holds one vector a node name, all of the table's dimension. Its text has one
`name: v₁ v₂ …` row a line; blank lines are skipped and of two rows with one name the last holds.
-/

namespace TreeCorpus

open Number

inductive RowFault where
  | noColon
  /-- What stands before the colon is empty or holds a blank. -/
  | badName (name : String)
  | notANumber (word : String)
  deriving DecidableEq, Repr

def RowFault.message : RowFault → String
  | noColon => "expected '<node>: <values>'"
  | badName name => s!"invalid node id '{name}'"
  | notANumber word => s!"'{word}' is not a number"

inductive FeatureFault where
  /-- The row on a line cannot be read. -/
  | row (line : Nat) (fault : RowFault)
  /-- The row of a node holds another number of values. -/
  | dimension (node : String) (expected found : Nat)
  deriving DecidableEq, Repr

/-- Feature vectors by node name. -/
structure FeatureTable where
  dimension : Nat
  /-- Where the table comes from, for messages. -/
  origin : String
  rows : Std.HashMap String (List Single)

namespace FeatureTable

def empty (dimension : Nat) (origin : String) : FeatureTable := ⟨dimension, origin, ∅⟩

def lookup (t : FeatureTable) (node : String) : Option (List Single) := t.rows[node]?

def size (t : FeatureTable) : Nat := t.rows.size

def insert (t : FeatureTable) (node : String) (values : List Single) :
    Except FeatureFault FeatureTable :=
  if values.length ≠ t.dimension then
    .error (.dimension node t.dimension values.length)
  else .ok { t with rows := t.rows.insert node values }

/-- The numbers of the words, or the first word that is none. -/
def readValues : List String → Except RowFault (List Single)
  | [] => .ok []
  | w :: ws => match Binary.ofText? w with
    | none => .error (.notANumber w)
    | some v => (readValues ws).map (v :: ·)

/-- The name before the first colon and the values after it. -/
def readRow (line : String) : Except RowFault (String × List Single) :=
  let cs := line.toList
  match cs.dropWhile (· != ':') with
  | [] => .error .noColon
  | _ :: rest =>
    -- a name that holds a colon itself has no row: it is cut here
    let name := Text.trim (String.ofList (cs.takeWhile (· != ':')))
    if name.isEmpty || name.toList.any Text.isBlank then .error (.badName name)
    else (readValues (Text.words (String.ofList rest))).map (name, ·)

/-- Inserts the row of a line; a blank line holds none. -/
def readLine (t : FeatureTable) (number : Nat) (line : String) :
    Except FeatureFault FeatureTable :=
  let line := Text.trim line
  if line.isEmpty then .ok t
  else match readRow line with
    | .ok (node, values) => t.insert node values
    | .error fault => .error (.row number fault)

/-- Inserts the rows of lines that are numbered from `n` on. -/
def readLines (t : FeatureTable) (n : Nat) : List String → Except FeatureFault FeatureTable
  | [] => .ok t
  | line :: rest => match t.readLine n line with
    | .ok t' => t'.readLines (n + 1) rest
    | .error fault => .error fault

def ofText (text : String) (dimension : Nat) (origin : String) :
    Except FeatureFault FeatureTable :=
  (empty dimension origin).readLines 1 (Text.lines text)

end FeatureTable

end TreeCorpus
