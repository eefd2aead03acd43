import TreeCorpus.Toml.Basic

/-!
# Decoding TOML values

Texts, sizes, floats, lists and records of known fields. A record is a table, in which other keys
are ignored, or an array of the fields in order, in which further items are ignored; a date holds
none of the fields.
-/

namespace TreeCorpus.Toml.Value

open Number

def text? : Value → Option String
  | string s => some s
  | _ => none

def size? : Value → Option Nat
  | integer n => if 0 ≤ n then some n.toNat else none
  | _ => none

def double? : Value → Option Double
  | float x => some x
  | integer n => some (Binary.ofInt n)
  | _ => none

def list? {α : Type} (item : Value → Option α) : Value → Option (List α)
  | array vs => vs.mapM item
  | _ => none

/-- Whether there is nothing in a table or an array. -/
def holdsNothing : Value → Bool
  | array vs => vs.isEmpty
  | table _ es => es.isEmpty
  | tables ts => ts.isEmpty
  | _ => false

/-- The name of an alternative: a string, or the only key of a table that holds nothing for it. -/
def alternative? : Value → Option String
  | string s => some s
  | table _ [(key, v)] => if v.holdsNothing then some key else none
  | _ => none

/-- The values of the known fields, in order; none for a field that is not there. -/
def fields? (names : List String) : Value → Option (List (Option Value))
  | table _ es => some (names.map fun n => es.lookup n)
  | array vs => some (names.zipIdx.map fun n => vs[n.2]?)
  | tables ts => some (names.zipIdx.map fun n => (ts[n.2]?).map (table .header))
  | moment => some (names.map fun _ => none)
  | _ => none

/-- Decodes a field; one that is not there has the given value. -/
def orElse {α : Type} (decode : Value → Option α) (absent : α) : Option Value → Option α
  | none => some absent
  | some v => decode v

/-- Decodes a field that need not be there. -/
def optional {α : Type} (decode : Value → Option α) : Option Value → Option (Option α) :=
  orElse (fun v => (decode v).map some) none

end TreeCorpus.Toml.Value
