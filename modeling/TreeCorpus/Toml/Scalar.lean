import TreeCorpus.Number.Decimal
import TreeCorpus.Number.Hex
import TreeCorpus.Number.Size
import TreeCorpus.Toml.Basic

/-!
# TOML numbers, dates and times

Digits may be grouped by single underscores. An integer has no leading zero and fits 64 bits with
a sign; a float has a fraction, an exponent or both. A date is a day of the calendar, a time of
day has seconds, and a date with a time may end with an offset.
-/

namespace TreeCorpus.Toml

open Number

/-- The digits at the start of a text, without the underscores that stand between two of them, and
the text after them. An underscore that no digit follows is a fault. `acc` holds the digits before,
the last first. -/
def takeGrouped (isDigit : Char → Bool) (acc : List Char) :
    List Char → Option (List Char × List Char)
  | '_' :: c :: cs =>
    if acc = [] then none
    else if isDigit c then takeGrouped isDigit (c :: acc) cs
    else none
  | c :: cs =>
    if isDigit c then takeGrouped isDigit (c :: acc) cs
    else if acc = [] ∨ c = '_' then none
    else some (acc.reverse, c :: cs)
  | [] => if acc = [] then none else some (acc.reverse, [])

def takeSign : List Char → List Char × List Char
  | '+' :: cs => (['+'], cs)
  | '-' :: cs => (['-'], cs)
  | cs => ([], cs)

def takeWhole : List Char → Option (List Char × List Char)
  | '0' :: cs => some (['0'], cs)
  | cs => takeGrouped Char.isDigit [] cs

def takeFraction : List Char → Option (List Char × List Char)
  | '.' :: cs => (takeGrouped Char.isDigit [] cs).map fun r => ('.' :: r.1, r.2)
  | cs => some ([], cs)

def takeExponent : List Char → Option (List Char × List Char)
  | [] => some ([], [])
  | c :: cs =>
    if c = 'e' ∨ c = 'E' then
      let (sign, rest) := takeSign cs
      (takeGrouped Char.isDigit [] rest).map fun r => ('e' :: sign ++ r.1, r.2)
    else some ([], c :: cs)

/-- The integer of a signed digit string, if it fits 64 bits. -/
def integer? (negative : Bool) (n : Nat) : Option Value :=
  let value : Int := if negative then -n else n
  if fitsSigned value then some (.integer value) else none

/-- The float of a spelling; one that rounds to positive infinity has none. -/
def float? (spelling : List Char) : Option Value :=
  match Binary.ofText? (String.ofList spelling) with
  | none => none
  | some x => if x = Binary.infinity false then none else some (.float x)

def takeSpecial (negative : Bool) : List Char → Option (Value × List Char)
  | 'i' :: 'n' :: 'f' :: cs => some (.float (Binary.infinity negative), cs)
  | 'n' :: 'a' :: 'n' :: cs => some (.float (Binary.nan negative), cs)
  | _ => none

def takeDecimal (cs : List Char) : Option (Value × List Char) := do
  let (sign, body) := takeSign cs
  let negative := sign = ['-']
  match takeSpecial negative body with
  | some r => return r
  | none =>
    let (whole, rest) ← takeWhole body
    let (fraction, rest) ← takeFraction rest
    let (exponent, rest) ← takeExponent rest
    if fraction = [] ∧ exponent = [] then
      let v ← integer? negative (ofDigits whole)
      return (v, rest)
    else
      let v ← float? (sign ++ whole ++ fraction ++ exponent)
      return (v, rest)

def takeBased (base : Nat) (cs : List Char) : Option (Value × List Char) := do
  let isDigit (c : Char) : Bool := match hexValue? c with
    | some n => n < base
    | none => false
  let (ds, rest) ← takeGrouped isDigit [] cs
  let n := ds.foldl (fun n d => base * n + (hexValue? d).getD 0) 0
  let v ← integer? false n
  return (v, rest)

/-! ## Dates and times -/

/-- The number of exactly `width` digits, between two bounds. -/
def takeField (width low high : Nat) (cs : List Char) : Option (Nat × List Char) :=
  let ds := cs.take width
  if ds.length = width ∧ ds.all Char.isDigit ∧ low ≤ ofDigits ds ∧ ofDigits ds ≤ high then
    some (ofDigits ds, cs.drop width)
  else none

def skipChar? (c : Char) : List Char → Option (List Char)
  | d :: cs => if d = c then some cs else none
  | [] => none

def daysIn (year month : Nat) : Nat :=
  if month = 2 then
    if year % 4 = 0 ∧ (year % 100 ≠ 0 ∨ year % 400 = 0) then 29 else 28
  else if month = 4 ∨ month = 6 ∨ month = 9 ∨ month = 11 then 30
  else 31

def skipDate? (cs : List Char) : Option (List Char) := do
  let (year, cs) ← takeField 4 0 9999 cs
  let cs ← skipChar? '-' cs
  let (month, cs) ← takeField 2 1 12 cs
  let cs ← skipChar? '-' cs
  let (_, cs) ← takeField 2 1 (daysIn year month) cs
  return cs

def skipFraction : List Char → List Char
  | '.' :: c :: cs => if c.isDigit then cs.dropWhile Char.isDigit else '.' :: c :: cs
  | cs => cs

def skipTime? (cs : List Char) : Option (List Char) := do
  let (_, cs) ← takeField 2 0 23 cs
  let cs ← skipChar? ':' cs
  let (_, cs) ← takeField 2 0 59 cs
  let cs ← skipChar? ':' cs
  let (_, cs) ← takeField 2 0 60 cs
  return skipFraction cs

/-- The text after an offset, if there is one; a sign must start one. -/
def skipOffset? : List Char → Option (List Char)
  | [] => some []
  | c :: cs =>
    if c = 'Z' ∨ c = 'z' then some cs
    else if c = '+' ∨ c = '-' then do
      let (_, cs) ← takeField 2 0 23 cs
      let cs ← skipChar? ':' cs
      let (_, cs) ← takeField 2 0 59 cs
      return cs
    else some (c :: cs)

def joinsTime (c : Char) : Bool := c = 'T' || c = 't' || c = ' '

/-- The text after the time that may follow a date. A blank with two digits and a colon after it
starts one. -/
def skipTimeOfDate? : List Char → Option (List Char)
  | [] => some []
  | c :: cs =>
    if joinsTime c then
      match takeField 2 0 23 cs with
      | some (_, ':' :: _) => (skipTime? cs).bind skipOffset?
      | _ => some (c :: cs)
    else some (c :: cs)

/-- The text after a date with or without a time, or after a time of day. -/
def skipMoment? (cs : List Char) : Option (List Char) :=
  match skipDate? cs with
  | some rest => skipTimeOfDate? rest
  | none => skipTime? cs

def takeNumeric (cs : List Char) : Option (Value × List Char) :=
  match skipMoment? cs with
  | some rest => some (.moment, rest)
  | none => match cs with
    | '0' :: 'x' :: cs => takeBased 16 cs
    | '0' :: 'o' :: cs => takeBased 8 cs
    | '0' :: 'b' :: cs => takeBased 2 cs
    | cs => takeDecimal cs

end TreeCorpus.Toml
