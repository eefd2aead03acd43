import TreeCorpus.Number.Binary

/-!
# Reading decimal text

A decimal literal is an optional sign followed by one of the words `inf`, `infinity` and `nan` in
any case, or by digits with an optional point and an optional exponent. Its value is rounded once,
to the nearest number of the format.
-/

namespace TreeCorpus.Number

/-- What a decimal text says, before rounding. -/
inductive Literal where
  | nan (negative : Bool)
  | infinite (negative : Bool)
  /-- The number `significand * 10 ^ exponent`. -/
  | decimal (negative : Bool) (significand : Nat) (exponent : Int)
  deriving DecidableEq, Repr

namespace Literal

/-- The number nearest to `significand * 10 ^ exponent`. A power of ten beyond `2 ^ exponentBits`
lies outside the format on its side. -/
def roundDecimal {f : Format} (negative : Bool) (significand : Nat) (exponent : Int) : Binary f :=
  let order := (decimalLength significand : Int) + exponent
  let bound : Int := (1 <<< f.exponentBits : Nat)
  if significand = 0 ∨ order < -bound then Binary.zero negative
  else if bound < order then Binary.infinity negative
  else Binary.round negative (significand * Nat.pow 10 exponent.toNat)
    (Nat.pow 10 (-exponent).toNat)

def toBinary {f : Format} : Literal → Binary f
  | nan n => Binary.nan n
  | infinite n => Binary.infinity n
  | decimal n m e => roundDecimal n m e

/-- An optional sign and the text after it. -/
def takeSign : List Char → Bool × List Char
  | '-' :: cs => (true, cs)
  | '+' :: cs => (false, cs)
  | cs => (false, cs)

/-- The exponent at the end of a literal: nothing, or `e` and a signed digit string. -/
def exponent? : List Char → Option Int
  | [] => some 0
  | c :: cs =>
    if c = 'e' ∨ c = 'E' then
      let (negative, ds) := takeSign cs
      if ds ≠ [] ∧ ds.all Char.isDigit then
        some (if negative then -(ofDigits ds : Int) else ofDigits ds)
      else none
    else none

/-- Digits with an optional point, at least one digit on one of its sides, and an exponent. -/
def unsigned? (negative : Bool) (cs : List Char) : Option Literal :=
  let whole := cs.takeWhile Char.isDigit
  let rest := cs.dropWhile Char.isDigit
  let (fraction, tail) := match rest with
    | '.' :: ds => (ds.takeWhile Char.isDigit, ds.dropWhile Char.isDigit)
    | _ => ([], rest)
  if whole = [] ∧ fraction = [] then none
  else (exponent? tail).map fun e =>
    decimal negative (ofDigits (whole ++ fraction)) (e - fraction.length)

def ofChars? (cs : List Char) : Option Literal :=
  let (negative, body) := takeSign cs
  let word := body.map Char.toLower
  if word = ['i', 'n', 'f'] ∨ word = ['i', 'n', 'f', 'i', 'n', 'i', 't', 'y'] then
    some (infinite negative)
  else if word = ['n', 'a', 'n'] then some (nan negative)
  else unsigned? negative body

end Literal

def Binary.ofText? {f : Format} (s : String) : Option (Binary f) :=
  (Literal.ofChars? s.toList).map Literal.toBinary

end TreeCorpus.Number
