import TreeCorpus.Number.Binary

/-!
# Arithmetic as a parameter

Layouts, scores and confidences are computed over any type with the four operations. The program
runs them on floating-point numbers; over exact numbers the same definitions have no rounding.
-/

namespace TreeCorpus.Number

/-- A type with the four operations, the natural numbers and the value of an empty sum. -/
class Arithmetic (α : Type) extends Add α, Sub α, Mul α, Div α, NatCast α where
  /-- What a sum starts from; where zeros have signs it is the negative zero. -/
  emptySum : α

/-- The sum of a list, from the left. -/
def sum {α : Type} [Arithmetic α] (xs : List α) : α := xs.foldl (· + ·) Arithmetic.emptySum

/-- Arithmetic with an exponential function and the larger of two values. -/
class Exponential (α : Type) extends Arithmetic α where
  exp : α → α
  larger : α → α → α

def Single.toFloat (x : Single) : Float32 := Float32.ofBits (UInt32.ofNat x.bits.toNat)

def Single.ofFloat (x : Float32) : Single := ⟨BitVec.ofNat _ x.toBits.toNat⟩

def Double.toFloat (x : Double) : Float := Float.ofBits (UInt64.ofNat x.bits.toNat)

def Double.ofFloat (x : Float) : Double := ⟨BitVec.ofNat _ x.toBits.toNat⟩

instance : Arithmetic Single where
  add x y := Single.ofFloat (Single.toFloat x + Single.toFloat y)
  sub x y := Single.ofFloat (Single.toFloat x - Single.toFloat y)
  mul x y := Single.ofFloat (Single.toFloat x * Single.toFloat y)
  div x y := Single.ofFloat (Single.toFloat x / Single.toFloat y)
  natCast n := Binary.ofNat n
  emptySum := Binary.zero true

instance : Exponential Double where
  add x y := Double.ofFloat (Double.toFloat x + Double.toFloat y)
  sub x y := Double.ofFloat (Double.toFloat x - Double.toFloat y)
  mul x y := Double.ofFloat (Double.toFloat x * Double.toFloat y)
  div x y := Double.ofFloat (Double.toFloat x / Double.toFloat y)
  natCast n := Binary.ofNat n
  emptySum := Binary.zero true
  exp x := Double.ofFloat (Float.exp (Double.toFloat x))
  larger x y :=
    if x.isNaN then y else if y.isNaN then x
    else if Double.toFloat x < Double.toFloat y then y else x

end TreeCorpus.Number
