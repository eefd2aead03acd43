import TreeCorpus.Number.Hex

/-!
# TOML strings

A string stands between quotes, in which a backslash starts an escape, or between apostrophes, in
which all characters stand for themselves. Three of either open a string of several lines: a line
break right after them is left out, and one or two more of them may stand before the closing
three.
-/

namespace TreeCorpus.Toml

open Number

def isSpace (c : Char) : Bool := c = ' ' || c = '\t'

def skipSpace (cs : List Char) : List Char := cs.dropWhile isSpace

/-- The text after one line break: a line feed, with a carriage return before it or none. -/
def skipBreak? : List Char → Option (List Char)
  | '\n' :: cs => some cs
  | '\r' :: '\n' :: cs => some cs
  | _ => none

def isPlain (c : Char) : Bool := c = '\t' || (0x20 ≤ c.toNat && c.toNat ≠ 0x7F)

/-- The character of a code point, surrogates having none. -/
def charOf? (n : Nat) : Option Char := if h : n.isValidChar then some (Char.ofNatAux n h) else none

def hexNumber? (ds : List Char) : Option Nat :=
  ds.foldlM (fun n d => (hexValue? d).map (n * 16 + ·)) 0

def codePoint? (width : Nat) (cs : List Char) : Option (Char × List Char) := do
  if cs.length < width then none
  else
    let n ← hexNumber? (cs.take width)
    let c ← charOf? n
    return (c, cs.drop width)

def escape? : List Char → Option (Char × List Char)
  | 'b' :: cs => some ('\x08', cs)
  | 't' :: cs => some ('\t', cs)
  | 'n' :: cs => some ('\n', cs)
  | 'f' :: cs => some ('\x0c', cs)
  | 'r' :: cs => some ('\r', cs)
  | '"' :: cs => some ('"', cs)
  | '\\' :: cs => some ('\\', cs)
  | 'u' :: cs => codePoint? 4 cs
  | 'U' :: cs => codePoint? 8 cs
  | _ => none

/-- Drops blanks and line breaks; a carriage return that stands alone is neither. -/
def skipBreaks : List Char → List Char
  | '\n' :: cs => skipBreaks cs
  | '\r' :: '\n' :: cs => skipBreaks cs
  | c :: cs => if isSpace c then skipBreaks cs else c :: cs
  | [] => []

/-- The text after blanks and at least one line break, if that is what comes next. -/
def skipLineEnd? (cs : List Char) : Option (List Char) :=
  (skipBreak? (skipSpace cs)).map skipBreaks

inductive Quote where
  /-- Between quotes, with escapes. -/
  | basic
  /-- Between apostrophes, without escapes. -/
  | literal
  deriving DecidableEq, Repr

def Quote.mark : Quote → Char
  | basic => '"'
  | literal => '\''

/-- Reads a string of one line after its opening mark. Each step takes at least one character, so
as many steps as there are characters are enough. `acc` holds what was read, the last first. -/
def takeLine (q : Quote) (acc : List Char) : Nat → List Char → Option (String × List Char)
  | n + 1, c :: cs =>
    if c = q.mark then some (String.ofList acc.reverse, cs)
    else if c = '\\' ∧ q = .basic then
      match escape? cs with
      | none => none
      | some (e, rest) => takeLine q (e :: acc) n rest
    else if isPlain c then takeLine q (c :: acc) n cs
    else none
  | _, _ => none

def takeLines (q : Quote) (acc : List Char) : Nat → List Char → Option (String × List Char)
  | n + 1, c :: cs =>
    if c = q.mark then
      let run := ((c :: cs).takeWhile (· = q.mark)).length
      let rest := (c :: cs).drop run
      if run < 3 then takeLines q (List.replicate run c ++ acc) n rest
      else if run < 6 then
        some (String.ofList (acc.reverse ++ List.replicate (run - 3) c), rest)
      else none
    else if c = '\\' ∧ q = .basic then
      match skipLineEnd? cs with
      | some rest => takeLines q acc n rest
      | none => match escape? cs with
        | none => none
        | some (e, rest) => takeLines q (e :: acc) n rest
    else match skipBreak? (c :: cs) with
      | some rest => takeLines q ('\n' :: acc) n rest
      | none => if isPlain c then takeLines q (c :: acc) n cs else none
  | _, _ => none

def Quote.of? (c : Char) : Option Quote :=
  if c = '"' then some basic else if c = '\'' then some literal else none

def lineString? : List Char → Option (String × List Char)
  | c :: cs => match Quote.of? c with
    | none => none
    | some q => takeLine q [] cs.length cs
  | [] => none

def string? : List Char → Option (String × List Char)
  | c :: d :: e :: cs => match Quote.of? c with
    | none => none
    | some q =>
      if d = c ∧ e = c then
        let body := (skipBreak? cs).getD cs
        takeLines q [] body.length body
      else lineString? (c :: d :: e :: cs)
  | cs => lineString? cs

end TreeCorpus.Toml
