import TreeCorpus.Toml.Scalar
import TreeCorpus.Toml.Text

/-!
# Reading TOML

A text is read statement by statement. Values may be nested to a fixed depth and keys have a
largest number of parts.
-/

namespace TreeCorpus.Toml

/-- Keys have fewer parts than this, and values fewer levels. -/
def depthLimit : Nat := 80

def isKeyChar (c : Char) : Bool := c.isAlphanum || c = '_' || c = '-'

def skipComment : List Char → List Char
  | '#' :: cs => cs.dropWhile isPlain
  | cs => cs

/-- The text after blanks and a comment, if there is one, which must be a line break or nothing. -/
def skipLine? (cs : List Char) : Option (List Char) :=
  match skipComment (skipSpace cs) with
  | [] => some []
  | rest => skipBreak? rest

/-- The text after blanks, line breaks and comments. Each step takes a line break, so as many steps
as there are characters are enough. -/
def skipLines : Nat → List Char → List Char
  | 0, cs => cs
  | n + 1, cs => match skipBreak? (skipComment (skipSpace cs)) with
    | some rest => skipLines n rest
    | none => skipSpace cs

def keyPart? (cs : List Char) : Option (String × List Char) :=
  match cs with
  | '"' :: _ => lineString? cs
  | '\'' :: _ => lineString? cs
  | _ => match cs.takeWhile isKeyChar with
    | [] => none
    | ks => some (String.ofList ks, cs.dropWhile isKeyChar)

/-- The parts of a key, which points separate, and the text after it. `acc` holds the parts before,
the last first. -/
def keyParts (acc : List String) : Nat → List Char → Option (List String × List Char)
  | 0, _ => none
  | n + 1, cs => match keyPart? (skipSpace cs) with
    | none => none
    | some (k, rest) => match skipSpace rest with
      | '.' :: rest => keyParts (k :: acc) n rest
      | rest => some ((k :: acc).reverse, rest)

def key? (cs : List Char) : Option (List String × List Char) := keyParts [] (depthLimit - 1) cs

def keyBefore? (cs : List Char) : Option (List String × List Char) :=
  match key? cs with
  | some (k, '=' :: rest) => some (k, skipSpace rest)
  | _ => none

mutual

/-- Reads a value. The first number bounds the steps, the second the levels. -/
def value? : Nat → Nat → List Char → Option (Value × List Char)
  | 0, _, _ => none
  | n + 1, depth, cs => match cs with
    | '[' :: rest => match depth with
      | 0 => none
      | depth + 1 => items? n depth [] (skipLines rest.length rest)
    | '{' :: rest => match depth with
      | 0 => none
      | depth + 1 => match skipSpace rest with
        | '}' :: rest => some (.table .inline [], rest)
        | rest => pairs? n depth [] rest
    | 't' :: 'r' :: 'u' :: 'e' :: rest => some (.boolean true, rest)
    | 'f' :: 'a' :: 'l' :: 's' :: 'e' :: rest => some (.boolean false, rest)
    | '"' :: _ => (string? cs).map fun r => (.string r.1, r.2)
    | '\'' :: _ => (string? cs).map fun r => (.string r.1, r.2)
    | _ => takeNumeric cs

/-- Reads the items of an array up to its closing bracket. A comma may stand before it. -/
def items? : Nat → Nat → List Value → List Char → Option (Value × List Char)
  | 0, _, _, _ => none
  | n + 1, depth, acc, cs => match cs with
    | ']' :: rest => some (.array acc.reverse, rest)
    | _ => match value? n depth cs with
      | none => none
      | some (v, rest) => match skipLines rest.length rest with
        | ',' :: rest => items? n depth (v :: acc) (skipLines rest.length rest)
        | ']' :: rest => some (.array (v :: acc).reverse, rest)
        | _ => none

def pairs? : Nat → Nat → List (List String × Value) → List Char → Option (Value × List Char)
  | 0, _, _, _ => none
  | n + 1, depth, acc, cs => match keyBefore? cs with
    | none => none
    | some (k, rest) => match value? n depth rest with
      | none => none
      | some (v, rest) => match skipSpace rest with
        | ',' :: rest => pairs? n depth ((k, v) :: acc) rest
        | '}' :: rest =>
          (Entries.ofPairs? ((k, v) :: acc).reverse).map fun es => (.table .inline es, rest)
        | _ => none

end

def header? (closing : List Char) (cs : List Char) : Option (List String × List Char) :=
  match key? cs with
  | none => none
  | some (k, rest) =>
    if closing.isPrefixOf rest then (skipLine? (rest.drop closing.length)).map (k, ·) else none

/-- The statement at the start of a text that does not start with a blank, and the text after its
line. -/
def statement? (cs : List Char) : Option (Statement × List Char) :=
  match cs with
  | '[' :: '[' :: rest => (header? [']', ']'] rest).map fun r => (.element r.1, r.2)
  | '[' :: rest => (header? [']'] rest).map fun r => (.table r.1, r.2)
  | _ => match keyBefore? cs with
    | none => none
    | some (k, rest) => match value? (2 * rest.length + 2) (depthLimit - 1) rest with
      | none => none
      | some (v, rest) => (skipLine? rest).map (.pair k v, ·)

/-- The statements of a text. Each step takes at least one character, so as many steps as there are
characters are enough. `acc` holds the statements before, the last first. -/
def statementsWithin (acc : List Statement) : Nat → List Char → Option (List Statement)
  | _, [] => some acc.reverse
  | 0, _ :: _ => none
  | n + 1, cs =>
    match skipLines cs.length cs with
    | [] => some acc.reverse
    | '#' :: cs => (skipLine? ('#' :: cs)).bind (statementsWithin acc n)
    | cs => match statement? cs with
      | none => none
      | some (s, rest) => statementsWithin (s :: acc) n rest

/-- The text without the byte order mark that may start it. -/
def dropMark : List Char → List Char
  | '\ufeff' :: cs => cs
  | cs => cs

def statements? (s : String) : Option (List Statement) :=
  let cs := dropMark s.toList
  statementsWithin [] cs.length cs

def entriesOfText? (s : String) : Option Entries :=
  (statements? s).bind Document.ofStatements?

end TreeCorpus.Toml
