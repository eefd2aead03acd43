import TreeCorpus.Json.Token

/-!
# Reading JSON

The tokens are read one by one into a state that keeps the open arrays and objects on a stack, so
values may be nested to any depth.
-/

namespace TreeCorpus.Json

/-- An array or object that is still open; its parts are kept the last first. -/
inductive Frame where
  | array (items : List Json)
  | object (members : List (List Char × Json)) (key : List Char)

inductive Expect where
  | value
  /-- A value or the end of the array that was just opened. -/
  | valueOrEnd
  | key
  /-- A key or the end of the object that was just opened. -/
  | keyOrEnd
  /-- The colon after a key. -/
  | colon
  /-- A comma or the end of the innermost open value. -/
  | commaOrEnd
  deriving DecidableEq

inductive Reader where
  | reading (stack : List Frame) (expect : Expect)
  | finished (value : Json)

namespace Reader

/-- Puts a complete value where it belongs. -/
def complete (v : Json) : List Frame → Reader
  | [] => finished v
  | .array items :: stack => reading (.array (v :: items) :: stack) .commaOrEnd
  | .object members key :: stack => reading (.object ((key, v) :: members) [] :: stack) .commaOrEnd

def readValue (stack : List Frame) : Token → Option Reader
  | .openArray => some (reading (.array [] :: stack) .valueOrEnd)
  | .openObject => some (reading (.object [] [] :: stack) .keyOrEnd)
  | .null => some (complete .null stack)
  | .bool b => some (complete (.bool b) stack)
  | .number s => some (complete (.number s) stack)
  | .string s => some (complete (.string s) stack)
  | _ => none

def close : List Frame → Token → Option Reader
  | .array items :: stack, .closeArray => some (complete (.array items.reverse) stack)
  | .object members _ :: stack, .closeObject => some (complete (.object members.reverse) stack)
  | _, _ => none

def readKey : List Frame → Token → Option Reader
  | .object members _ :: stack, .string s => some (reading (.object members s :: stack) .colon)
  | _, _ => none

def step : Reader → Token → Option Reader
  | finished _, _ => none
  | reading stack .value, t => readValue stack t
  | reading stack .valueOrEnd, t => if t = .closeArray then close stack t else readValue stack t
  | reading stack .key, t => readKey stack t
  | reading stack .keyOrEnd, t => if t = .closeObject then close stack t else readKey stack t
  | reading stack .colon, t => if t = .colon then some (reading stack .value) else none
  | reading stack .commaOrEnd, t =>
    if t = .comma then
      match stack with
      | .array _ :: _ => some (reading stack .value)
      | .object _ _ :: _ => some (reading stack .key)
      | [] => none
    else close stack t

end Reader

def ofTokens? (ts : List Token) : Option Json :=
  match ts.foldlM Reader.step (.reading [] .value) with
  | some (.finished v) => some v
  | _ => none

/-- The value that a text spells; nothing but spaces may stand around it. -/
def ofText? (s : String) : Option Json := (tokens? s.toList).bind ofTokens?

end TreeCorpus.Json
