import TreeCorpus.Number.Binary

/-!
# The shortest decimal text

A finite number is written with the fewest decimal digits that read back to it. The numbers that
round to it form an interval; the coarsest decimal grid with a point in the interval gives the
digits, and of two such points the nearer one is taken. `TextStyle` says where an exact tie goes,
and where the digits are written out in full and where with an exponent.
-/

namespace TreeCorpus.Number

/-- The number `0.d₁d₂… * 10 ^ point`, for the digits `d₁d₂…`. -/
structure Digits where
  digits : List Char
  point : Int
  deriving DecidableEq, Repr

namespace Digits

/-- The digits of `c * 10 ^ k` without the zeros at the end. -/
def ofScaled (c : Nat) (k : Int) : Digits :=
  let ds := Nat.toDigits 10 c
  ⟨(ds.reverse.dropWhile (· == '0')).reverse, k + ds.length⟩

/-- Writes out all places, with at least one digit on both sides of the point. -/
def positional (d : Digits) : List Char :=
  let n := d.digits.length
  if d.point ≤ 0 then
    '0' :: '.' :: (List.replicate (-d.point).toNat '0' ++ d.digits)
  else if (n : Int) ≤ d.point then
    d.digits ++ List.replicate (d.point.toNat - n) '0' ++ ['.', '0']
  else
    d.digits.take d.point.toNat ++ '.' :: d.digits.drop d.point.toNat

/-- One digit before the point and a signed exponent. -/
def scientific (d : Digits) : List Char :=
  let e := d.point - 1
  let fraction := d.digits.drop 1
  d.digits.take 1 ++ (if fraction = [] then [] else '.' :: fraction) ++
    'e' :: (if e < 0 then '-' else '+') :: Nat.toDigits 10 e.natAbs

end Digits

inductive Tie where
  /-- The one with the even last digit. -/
  | toEven
  /-- The greater one. -/
  | up
  deriving DecidableEq, Repr

/-- Whether `c + 1` is taken and not `c`, for a number `r / unit` above `c`. -/
def Tie.takesUpper (t : Tie) (c r unit : Nat) : Bool :=
  unit < 2 * r || (2 * r = unit && (t = .up || c % 2 = 1))

structure TextStyle where
  tie : Tie
  /-- The decimal point positions, above the first and up to the second number, that are written
  out in full; all of them are if there is no such pair. -/
  full : Option (Int × Int)

/-- Numbers of 64 bits are written out from `1e-5` up to but not including `1e16`. -/
def TextStyle.double : TextStyle := ⟨.toEven, some (-5, 16)⟩

def TextStyle.single : TextStyle := ⟨.toEven, some (-6, 13)⟩

/-- All numbers are written out, and a tie goes up. -/
def TextStyle.plain : TextStyle := ⟨.up, none⟩

def TextStyle.write (t : TextStyle) (d : Digits) : List Char :=
  match t.full with
  | none => d.positional
  | some (above, upTo) => if above < d.point ∧ d.point ≤ upTo then d.positional else d.scientific

/-- The least `e` with `num / den < 10 ^ e`. -/
def decimalPoint (num den : Nat) : Int :=
  if den ≤ num then decimalLength (num / den)
  else 1 - (decimalLength ((den + num - 1) / num - 1) : Int)

/-- A number and the interval that rounds to it, over one denominator. -/
structure Interval where
  low : Nat
  value : Nat
  high : Nat
  den : Nat
  /-- Whether the two ends round to the number too. -/
  closed : Bool

namespace Interval

/-- The interval of `m * 2 ^ q`: half a place on both sides, a quarter below a power of two. -/
def ofFinite (f : Format) (m : Nat) (q : Int) : Interval :=
  let below := if m = 1 <<< f.fractionBits ∧ f.minScale < q then 1 else 2
  let up (n : Nat) := n <<< q.toNat
  ⟨up (4 * m - below), up (4 * m), up (4 * m + 2), 4 <<< (-q).toNat, m % 2 = 0⟩

/-- The point of the grid `10 ^ k` in the interval that is nearest to the number, if there is
one. -/
def onGrid (i : Interval) (t : Tie) (k : Int) : Option Nat :=
  let up := Nat.pow 10 (-k).toNat
  let unit := i.den * Nat.pow 10 k.toNat
  let c := i.value * up / unit
  let r := i.value * up % unit
  let lowerFits := if i.closed then i.low * up ≤ c * unit else i.low * up < c * unit
  let upperFits := if i.closed then (c + 1) * unit ≤ i.high * up else (c + 1) * unit < i.high * up
  if lowerFits ∧ upperFits then
    some (if t.takesUpper c r unit then c + 1 else c)
  else if lowerFits then some c
  else if upperFits then some (c + 1)
  else none

/-- The first of the grids `10 ^ k`, `10 ^ (k - 1)`, … with a point in the interval. -/
def firstGrid (i : Interval) (t : Tie) : Nat → Int → Digits
  -- not met: with the places of a format a grid before this one has a point
  | 0, k =>
    Digits.ofScaled (roundDiv (i.value * Nat.pow 10 (-k).toNat) (i.den * Nat.pow 10 k.toNat)) k
  | n + 1, k => match i.onGrid t k with
    | some c => Digits.ofScaled c k
    | none => firstGrid i t n (k - 1)

/-- The fewest digits that round to the number. `places` bounds how many are tried. -/
def shortest (i : Interval) (t : Tie) (places : Nat) : Digits :=
  i.firstGrid t places (decimalPoint i.value i.den - 1)

end Interval

/-- As many digits as tell all numbers of the format apart. -/
def Format.decimalPlaces (f : Format) : Nat := (f.fractionBits + 1) * 302 / 1000 + 2

namespace Binary

variable {f : Format}

def shortest (f : Format) (t : Tie) (m : Nat) (q : Int) : Digits :=
  (Interval.ofFinite f m q).shortest t f.decimalPlaces

/-- Writes a finite number; infinities and NaN have no text. -/
def write (t : TextStyle) (x : Binary f) : Option String :=
  match x.kind with
  | .finite m q =>
    let ds := if m = 0 then ['0', '.', '0'] else t.write (shortest f t.tie m q)
    some (String.ofList (if x.negative then '-' :: ds else ds))
  | _ => none

end Binary

def Single.text? (x : Single) : Option String := x.write .single

def Double.text? (x : Double) : Option String := x.write .double

def Double.plainText? (x : Double) : Option String := x.write .plain

/-- The number `2 ^ (-25)` is as near to one of its shortest decimals as to another. -/
example : Double.text? ⟨0x3E60000000000000⟩ = some "2.9802322387695312e-8" ∧
    Double.plainText? ⟨0x3E60000000000000⟩ = some "0.000000029802322387695313" := by
  decide +kernel

end TreeCorpus.Number
