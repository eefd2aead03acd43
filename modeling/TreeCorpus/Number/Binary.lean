import TreeCorpus.Number.Rounding

/-!
# Binary floating-point numbers

A `Binary f` is the bit pattern of a number in the interchange format `f`: a sign bit, a biased
exponent and a fraction. `Binary.kind` reads the pattern as a significand and a power of two,
`Binary.round` gives the pattern nearest to a quotient, ties to even, and `Binary.key` orders the
finite patterns.
-/

namespace TreeCorpus.Number

/-- How many bits of a pattern hold the exponent and the fraction. -/
structure Format where
  exponentBits : Nat
  fractionBits : Nat
  deriving DecidableEq

namespace Format

abbrev single : Format := ⟨8, 23⟩

abbrev double : Format := ⟨11, 52⟩

abbrev magnitudeBits (f : Format) : Nat := f.exponentBits + f.fractionBits

/-- The sign, the exponent and the fraction. -/
abbrev width (f : Format) : Nat := f.magnitudeBits + 1

/-- The power of two that the last place of the smallest numbers stands for. -/
def minScale (f : Format) : Int :=
  2 - (1 <<< (f.exponentBits - 1) : Nat) - (f.fractionBits : Nat)

/-- The magnitude pattern of infinity: all bits of the exponent set, none of the fraction. -/
def infinity (f : Format) : Nat := (1 <<< f.exponentBits - 1) <<< f.fractionBits

example : double.minScale = -1074 ∧ single.minScale = -149 := by decide

end Format

/-- A number of the format `f`, as its bit pattern. -/
structure Binary (f : Format) where
  bits : BitVec f.width
  deriving DecidableEq

abbrev Single : Type := Binary .single

abbrev Double : Type := Binary .double

inductive Kind where
  | nan
  | infinite
  /-- The number `significand * 2 ^ scale`. -/
  | finite (significand : Nat) (scale : Int)
  deriving DecidableEq, Repr

namespace Binary

variable {f : Format}

def ofParts (negative : Bool) (magnitude : Nat) : Binary f :=
  ⟨BitVec.cons negative (BitVec.ofNat f.magnitudeBits magnitude)⟩

def negative (x : Binary f) : Bool := x.bits.msb

def magnitude (x : Binary f) : Nat := (x.bits.setWidth f.magnitudeBits).toNat

def kind (x : Binary f) : Kind :=
  let m := x.magnitude
  if f.infinity < m then .nan
  else if m = f.infinity then .infinite
  else
    let hidden := 1 <<< f.fractionBits
    let exponent := m / hidden
    let fraction := m % hidden
    if exponent = 0 then .finite fraction f.minScale
    else .finite (hidden + fraction) (f.minScale + (exponent - 1 : Nat))

def isFinite (x : Binary f) : Bool := x.magnitude < f.infinity

def isNaN (x : Binary f) : Bool := f.infinity < x.magnitude

/-- The order of the finite numbers, in which both zeros are equal. -/
def key (x : Binary f) : Int := if x.negative then -(x.magnitude : Int) else x.magnitude

/-- The first finite number is the smaller one. -/
def less (x y : Binary f) : Bool := x.key < y.key

def infinity (negative : Bool) : Binary f := ofParts negative f.infinity

def nan (negative : Bool) : Binary f :=
  ofParts negative (f.infinity + 1 <<< (f.fractionBits - 1))

def zero (negative : Bool) : Binary f := ofParts negative 0

/-- The least power of two, not below that of the smallest numbers, on whose grid the quotient has
no more places than the format holds. -/
def scaleFor (f : Format) (num den : Nat) : Int :=
  let gap : Int := (Nat.log2 num : Int) - Nat.log2 den
  let low := gap - (f.fractionBits + 1 : Nat)
  let fits := num <<< (-gap).toNat < den <<< gap.toNat
  max f.minScale (if fits then low else low + 1)

/-- The number nearest to `num / den`, ties to even; beyond the largest number it is infinity. -/
def round (negative : Bool) (num den : Nat) : Binary f :=
  if num = 0 then zero negative
  else
    let q := scaleFor f num den
    let s := roundDiv (num <<< (-q).toNat) (den <<< q.toNat)
    -- a significand rounded up to the next power of two carries into the exponent
    ofParts negative (min f.infinity ((q - f.minScale).toNat <<< f.fractionBits + s))

def ofNat (n : Nat) : Binary f := round false n 1

def ofInt (n : Int) : Binary f := round (n < 0) n.natAbs 1

def convert {g : Format} (x : Binary f) : Binary g :=
  match x.kind with
  | .nan => nan x.negative
  | .infinite => infinity x.negative
  | .finite m q => round x.negative (m <<< q.toNat) (1 <<< (-q).toNat)

end Binary

end TreeCorpus.Number
