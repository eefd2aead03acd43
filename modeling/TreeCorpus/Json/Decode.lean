import TreeCorpus.Json.Reader
import TreeCorpus.Number.Arithmetic
import TreeCorpus.Number.Decimal
import TreeCorpus.Number.Size

/-!
# Decoding JSON values

Texts, sizes, numbers of 32 bits, lists and records of known fields. A record is an object with
each known field once, other members being ignored, or an array of the fields in order.

A number without fraction and exponent is taken exactly when it fits 64 bits. Any other is its
leading digits, as many as fit 64 bits, scaled by a power of ten, and each step is rounded to
64-bit floating point; a number too large for that is no number.
-/

namespace TreeCorpus.Json

open Number

structure Spelling where
  negative : Bool
  whole : List Char
  fraction : List Char
  /-- None when the number is spelled without an exponent. -/
  exponent : Option Int
  /-- Whether the number is spelled with a point. -/
  pointed : Bool
  deriving DecidableEq

def Spelling.ofChars (cs : List Char) : Spelling :=
  let (negative, body) := Literal.takeSign cs
  let whole := body.takeWhile Char.isDigit
  let rest := body.dropWhile Char.isDigit
  let (pointed, fraction, tail) := match rest with
    | '.' :: ds => (true, ds.takeWhile Char.isDigit, ds.dropWhile Char.isDigit)
    | _ => (false, [], rest)
  ⟨negative, whole, fraction, if tail = [] then none else Literal.exponent? tail, pointed⟩

inductive Numeral where
  | integer (n : Int)
  | double (x : Double)
  deriving DecidableEq

/-- The longest start of a digit string whose number is a size, and how many digits are left. -/
def leadingSize (n : Nat) : List Char → Nat × Nat
  | [] => (n, 0)
  | d :: ds =>
    let m := 10 * n + (d.toNat - '0'.toNat)
    if m < sizeLimit then leadingSize m ds else (n, (d :: ds).length)

/-- The largest power of ten that one step scales by. -/
def scaleStep : Nat := 308

/-- Divides by `10 ^ e`, by at most `10 ^ 308` at a time. -/
def scaleDown (x : Double) (e : Nat) : Nat → Double
  | 0 => x
  | n + 1 =>
    if e ≤ scaleStep then x / (Nat.pow 10 e : Double)
    else if x.magnitude = 0 then x
    else scaleDown (x / (Nat.pow 10 scaleStep : Double)) (e - scaleStep) n

/-- Scales a size by a power of ten; a result beyond all finite numbers is none. -/
def scaled? (n : Nat) (e : Int) : Option Double :=
  let x : Double := (n : Double)
  if e < 0 then
    if x.magnitude = 0 then some x else some (scaleDown x e.natAbs (e.natAbs / scaleStep + 1))
  else if e.toNat ≤ scaleStep then
    let y := x * (Nat.pow 10 e.toNat : Double)
    if y.isFinite then some y else none
  else if x.magnitude = 0 then some x else none

def withSign (negative : Bool) (x : Double) : Double :=
  if negative then Binary.ofParts (!x.negative) x.magnitude else x

def exponentLimit : Int := Int32.maxValue.toInt

def Spelling.scale? (s : Spelling) (n : Nat) (shift : Int) : Option Numeral :=
  let e := s.exponent.getD 0
  if exponentLimit < (e.natAbs : Int) then
    if n ≠ 0 ∧ 0 < e then none else some (.double (Binary.zero s.negative))
  else (scaled? n (shift + e)).map fun x => .double (withSign s.negative x)

/-- The integer of a spelling without point and exponent, if it fits 64 bits; a negative zero is no
integer. -/
def integral (negative : Bool) (n : Nat) : Numeral :=
  if !negative then .integer n
  else if n ≠ 0 ∧ fitsSigned (-n) then .integer (-n)
  else .double (withSign true (n : Double))

/-- The number that a spelling stands for. The digits of the fraction follow those of the whole
part as long as the number formed fits a size. -/
def Spelling.numeral? (s : Spelling) : Option Numeral :=
  let (n, left) := leadingSize 0 s.whole
  if left = 0 ∧ !s.pointed ∧ s.exponent.isNone then some (integral s.negative n)
  else
    let (m, unread) := leadingSize n s.fraction
    s.scale? m ((left : Int) - ((s.fraction.length - unread : Nat) : Int))

def numeral? : Json → Option Numeral
  | number s => (Spelling.ofChars s).numeral?
  | _ => none

def size? (v : Json) : Option Nat :=
  match v.numeral? with
  | some (.integer n) => if 0 ≤ n then some n.toNat else none
  | _ => none

def byte? (v : Json) : Option UInt8 :=
  match v.size? with
  | some n => if n < 256 then some (UInt8.ofNat n) else none
  | none => none

def single? (v : Json) : Option Single :=
  match v.numeral? with
  | some (.integer n) => some (Binary.ofInt n)
  | some (.double x) => some x.convert
  | none => none

def text? : Json → Option String
  | string s => (unquote? s).map String.ofList
  | _ => none

def list? {α : Type} (item : Json → Option α) : Json → Option (List α)
  | array vs => vs.mapM item
  | _ => none

def pair? {α : Type} (item : Json → Option α) (v : Json) : Option (α × α) :=
  match v with
  | array [a, b] => do return (← item a, ← item b)
  | _ => none

/-- Puts a member into the place of its field. A second member for a field is a fault. -/
def placeMember (fields : List String) (places : List (Option Json)) (name : String) (v : Json) :
    Option (List (Option Json)) :=
  match fields, places with
  | f :: fs, p :: ps =>
    if f = name then
      match p with
      | none => some (some v :: ps)
      | some _ => none
    else (placeMember fs ps name v).map (p :: ·)
  -- a member of no known field is passed by
  | _, _ => some places

def fields? (fields : List String) : Json → Option (List Json)
  -- an array holds the values alone, in the order of the fields
  | array vs => if vs.length = fields.length then some vs else none
  | object ms => do
    let places ← ms.foldlM
      (fun places m => do
        let name ← unquote? m.1
        placeMember fields places (String.ofList name) m.2)
      (fields.map fun _ => none)
    places.mapM id
  | _ => none

end TreeCorpus.Json
