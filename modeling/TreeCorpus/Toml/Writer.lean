import TreeCorpus.Number.Hex
import TreeCorpus.Number.Rounding
import TreeCorpus.Number.Shortest
import TreeCorpus.Number.Size
import TreeCorpus.Toml.Basic

/-!
# Writing TOML

A document is written as sections of scalars and arrays of scalars. A string takes the plainest
of the written forms that needs no escapes, and escapes only where every form needs them.
-/

namespace TreeCorpus.Toml

open Number

/-! ## Strings -/

/-- A control character that is written as an escape; tabulators and line feeds have rules of their
own. -/
def isControl (c : Char) : Bool :=
  c ≠ '\t' && c ≠ '\n' && (c.toNat < 0x20 || c.toNat = 0x7F)

def longestRun (c : Char) (cs : List Char) : Nat :=
  (cs.foldl
    (fun (r : Nat × Nat) d =>
      let run := if d = c then r.1 + 1 else 0
      (run, max run r.2))
    (0, 0)).2

inductive Form where
  | basic
  | literal
  | basicLines
  | literalLines
  deriving DecidableEq, Repr

/-- The first form that writes a text without escapes, or else one with escapes. -/
def Form.of (cs : List Char) : Form :=
  let controls := cs.any isControl
  let backslashes := cs.contains '\\'
  let breaks := cs.contains '\n'
  let quotes := longestRun '"' cs
  let marks := longestRun '\'' cs
  if !controls && !backslashes && quotes = 0 && !breaks then basic
  else if !controls && marks = 0 && !breaks then literal
  else if !controls && !backslashes && quotes ≤ 2 then basicLines
  else if !controls && marks ≤ 2 then literalLines
  else if breaks then basicLines
  else basic

/-- How a character stands in a string with escapes. A line feed stands for itself in a string of
several lines. -/
def escapeChar (lines : Bool) (c : Char) : List Char :=
  if c = '\x08' then ['\\', 'b']
  else if c = '\t' then ['\\', 't']
  else if c = '\n' then (if lines then [c] else ['\\', 'n'])
  else if c = '\x0c' then ['\\', 'f']
  else if c = '\r' then ['\\', 'r']
  else if c = '\\' then ['\\', '\\']
  else if isControl c then
    ['\\', 'u', '0', '0', (hexDigit (c.toNat / 16)).toUpper, (hexDigit (c.toNat % 16)).toUpper]
  else [c]

/-- Escapes a text. A quote is escaped when `allowed` quotes stand right before it; `run` counts
them. -/
def escapeFrom (lines : Bool) (allowed run : Nat) : List Char → List Char
  | [] => []
  | c :: cs =>
    if c = '"' then
      if run < allowed then c :: escapeFrom lines allowed (run + 1) cs
      else '\\' :: c :: escapeFrom lines allowed 0 cs
    else escapeChar lines c ++ escapeFrom lines allowed 0 cs

/-- Three marks, the text, and three marks; a text with a line break starts on a line of its
own. -/
def betweenMarks (mark : Char) (breaks : Bool) (cs : List Char) : List Char :=
  let marks := [mark, mark, mark]
  marks ++ (if breaks then ['\n'] else []) ++ cs ++ marks

def quoteText (s : String) : List Char :=
  let cs := s.toList
  let breaks := cs.contains '\n'
  match Form.of cs with
  | .basic => '"' :: escapeFrom false 0 0 cs ++ ['"']
  | .literal => '\'' :: cs ++ ['\'']
  | .basicLines => betweenMarks '"' breaks (escapeFrom true 2 0 cs)
  | .literalLines => betweenMarks '\'' breaks cs

/-! ## Values and sections -/

def floatText (x : Double) : List Char :=
  match Double.plainText? x with
  | some s => s.toList
  | none =>
    if x.isNaN then ['n', 'a', 'n']
    else if x.negative then ['-', 'i', 'n', 'f']
    else ['i', 'n', 'f']

/-- The text of an integer, if it fits 64 bits with a sign. -/
def integerText? (n : Int) : Option (List Char) :=
  if fitsSigned n then
    some ((if n < 0 then ['-'] else []) ++ Nat.toDigits 10 n.natAbs)
  else none

def scalarText? : Value → Option (List Char)
  | .string s => some (quoteText s)
  | .integer n => integerText? n
  | .float x => some (floatText x)
  | .boolean true => some ['t', 'r', 'u', 'e']
  | .boolean false => some ['f', 'a', 'l', 's', 'e']
  | _ => none

/-- The text of an array: items stand on lines of their own unless there is only one. -/
def arrayText : List (List Char) → List Char
  | [] => ['[', ']']
  | [item] => '[' :: item ++ [']']
  | items =>
    '[' :: '\n' :: items.flatMap (fun item => List.replicate 4 ' ' ++ item ++ [',', '\n']) ++ [']']

/-- The text of a scalar or an array of scalars. -/
def valueText? : Value → Option (List Char)
  | .array items => (items.mapM scalarText?).map arrayText
  | v => scalarText? v

def pairText? (key : String) (v : Value) : Option (List Char) :=
  (valueText? v).map fun t => key.toList ++ ' ' :: '=' :: ' ' :: t ++ ['\n']

def sectionText? (name : String) (es : Entries) : Option (List Char) :=
  (es.mapM fun e => pairText? e.1 e.2).map fun lines =>
    '[' :: name.toList ++ [']', '\n'] ++ lines.flatten

def documentText? (sections : List (String × Entries)) : Option String :=
  (sections.mapM fun s => sectionText? s.1 s.2).map fun texts =>
    String.ofList (List.intercalate ['\n'] texts)

end TreeCorpus.Toml
