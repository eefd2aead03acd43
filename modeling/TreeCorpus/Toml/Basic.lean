import TreeCorpus.Number.Binary

/-!
# TOML documents

A document is a list of statements: a key with its value, the header of a table, the header of a
table in an array of tables. `ofStatements?` collects them into one table. How a table came about
decides what may still be added to it: a header may open a table that was only implied by a longer
header, and dotted keys may extend a table that dotted keys made, but no entry is set twice.
-/

namespace TreeCorpus.Toml

open Number

inductive Origin where
  /-- Written between braces; nothing can be added to it. -/
  | inline
  | header
  /-- Passed on the way to the table of a header. -/
  | implied
  /-- Made by a dotted key. -/
  | dotted
  deriving DecidableEq, Repr

/-- A value. Dates and times are told apart from all else, but not from each other. -/
inductive Value where
  | string (s : String)
  | integer (n : Int)
  | float (x : Double)
  | boolean (b : Bool)
  | moment
  | array (items : List Value)
  | table (origin : Origin) (entries : List (String × Value))
  /-- An array of tables, each opened by a header of its own. -/
  | tables (items : List (List (String × Value)))

abbrev Entries : Type := List (String × Value)

/-- One statement of a document. Keys are paths, the outermost table first. -/
inductive Statement where
  | pair (key : List String) (value : Value)
  | table (key : List String)
  | element (key : List String)

/-- Whether a path may lead through a table: never through one between braces, and through one
opened by a header only on the way to the table of another header. -/
def Origin.admits (table through : Origin) : Bool :=
  match table with
  | inline => false
  | header => through != dotted
  | implied | dotted => true

namespace Entries

def replace (key : String) (v : Value) (es : Entries) : Entries :=
  es.map fun e => if e.1 = key then (key, v) else e

/-- Changes the table at the end of a path. Missing tables on the way are made with the origin
`through`; of an array of tables the last one is taken. -/
def alter (through : Origin) (change : Origin → Entries → Option Entries) :
    List String → Origin → Entries → Option Entries
  | [], origin, es => change origin es
  | k :: ks, _, es => match es.lookup k with
    | none => (alter through change ks through []).map fun t => es ++ [(k, .table through t)]
    | some (.table origin t) =>
      if origin.admits through then
        (alter through change ks origin t).map fun t => replace k (.table origin t) es
      else none
    | some (.tables ts) => match ts.getLast? with
      | none => none
      | some t =>
        (alter through change ks .header t).map fun t => replace k (.tables (ts.dropLast ++ [t])) es
    -- a scalar or an array of values on the way
    | some _ => none

def add (key : String) (v : Value) (es : Entries) : Option Entries :=
  if (es.lookup key).isSome then none else some (es ++ [(key, v)])

/-- Adds a value under a dotted key. The table that takes the value must be one that dotted keys
made, unless the key has no dot. -/
def define (key : List String) (v : Value) (es : Entries) : Option Entries :=
  match key.getLast? with
  | none => none
  | some last =>
    alter .dotted
      (fun origin es => if key.length = 1 ∨ origin = .dotted then add last v es else none)
      key.dropLast .header es

/-- Opens the table of a header: a new one, or one that was only implied. -/
def openTable (key : String) (es : Entries) : Option Entries :=
  match es.lookup key with
  | none => some (es ++ [(key, .table .header [])])
  | some (.table .implied t) => some (replace key (.table .header t) es)
  | some _ => none

def openElement (key : String) (es : Entries) : Option Entries :=
  match es.lookup key with
  | none => some (es ++ [(key, .tables [[]])])
  | some (.tables ts) => some (replace key (.tables (ts ++ [[]])) es)
  | some _ => none

def atHeader (change : String → Entries → Option Entries) (key : List String) (es : Entries) :
    Option Entries :=
  match key.getLast? with
  | none => none
  | some last => alter .implied (fun _ es => change last es) key.dropLast .header es

end Entries

/-- The entries of the statements read so far, and the table that takes the next pair. -/
structure Document where
  entries : Entries
  current : List String

namespace Document

def step (d : Document) : Statement → Option Document
  | .pair key v =>
    (Entries.alter .implied (fun _ es => es.define key v) d.current .header d.entries).map
      (⟨·, d.current⟩)
  | .table key => (d.entries.atHeader Entries.openTable key).map (⟨·, key⟩)
  | .element key => (d.entries.atHeader Entries.openElement key).map (⟨·, key⟩)

def ofStatements? (ss : List Statement) : Option Entries :=
  (ss.foldlM step ⟨[], []⟩).map Document.entries

end Document

def Entries.ofPairs? (ps : List (List String × Value)) : Option Entries :=
  ps.foldlM (fun es p => es.define p.1 p.2) []

end TreeCorpus.Toml
