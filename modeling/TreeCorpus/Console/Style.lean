/-!
# Styled text

A style is written before a text as an escape sequence and taken back after it. Where the text
itself takes all styles back, its own style is written again.
-/

namespace TreeCorpus.Console

inductive Color where
  | red
  | green
  | yellow
  | cyan
  deriving DecidableEq, Repr

def Color.code : Color → String
  | red => "31"
  | green => "32"
  | yellow => "33"
  | cyan => "36"

structure Style where
  bold : Bool := false
  dimmed : Bool := false
  color : Option Color := none
  deriving DecidableEq

namespace Style

def codes (s : Style) : List String :=
  (if s.bold then ["1"] else []) ++ (if s.dimmed then ["2"] else []) ++
    (s.color.map Color.code).toList

def start (s : Style) : List Char :=
  '\x1b' :: '[' :: (String.intercalate ";" s.codes).toList ++ ['m']

def reset : List Char := ['\x1b', '[', '0', 'm']

/-- Writes `again` after every reset in a text. -/
def restart (again : List Char) : List Char → List Char
  -- the text inside was painted before: its reset would end the outer style too
  | '\x1b' :: '[' :: '0' :: 'm' :: cs => reset ++ again ++ restart again cs
  | c :: cs => c :: restart again cs
  | [] => []

/-- The text in a style, or the text alone where colors are off. -/
def paint (s : Style) (colors : Bool) (text : String) : String :=
  if colors then String.ofList (s.start ++ restart s.start text.toList ++ reset) else text

end Style

def strong : Style := { bold := true }

def faint : Style := { dimmed := true }

def plain (c : Color) : Style := { color := some c }

def bright (c : Color) : Style := { bold := true, color := some c }

end TreeCorpus.Console
