/-!
# Rounding a quotient

The quotient of two natural numbers rounded to the nearest natural number, a half going to the
even neighbour, and the decimal digits of natural numbers.
-/

namespace TreeCorpus.Number

/-- `num / den` rounded to the nearest number; an exact half goes to the even neighbour. -/
def roundDiv (num den : Nat) : Nat :=
  let q := num / den
  let r := num % den
  if den < 2 * r ∨ (2 * r = den ∧ q % 2 = 1) then q + 1 else q

def decimalLength (n : Nat) : Nat := (Nat.toDigits 10 n).length

def ofDigits (ds : List Char) : Nat :=
  ds.foldl (fun n d => 10 * n + (d.toNat - '0'.toNat)) 0

def padDigits (width n : Nat) : List Char :=
  let ds := Nat.toDigits 10 n
  List.replicate (width - ds.length) '0' ++ ds

end TreeCorpus.Number
