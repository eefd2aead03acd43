import TreeCorpus.Number.Rounding

/-!
# Sizes

Indexes, counts and page sizes are whole numbers of 64 bits. A sum or product of them that is not
below `2 ^ 64` stops the program, or it is taken modulo that number, as the program was built
(`Overflow`). A text is a size when it is a digit string, with a plus sign or none, below the limit.
-/

namespace TreeCorpus.Number

def sizeLimit : Nat := UInt64.size

def wrap (n : Nat) : Nat := n % sizeLimit

theorem wrap_of_lt {n : Nat} (h : n < sizeLimit) : wrap n = n := Nat.mod_eq_of_lt h

theorem wrap_lt (n : Nat) : wrap n < sizeLimit := Nat.mod_lt n (by decide)

/-- What becomes of a sum or product of sizes that is none: it wraps, or the run stops. A program
built for tests stops. -/
inductive Overflow where
  | wraps
  | stops
  deriving DecidableEq, Repr

namespace Overflow

variable {α : Type} {o : Overflow} {n : Nat} {a b : α}

/-- The outcome of a computation in which no sum or product exceeds `n`, none if it stops. -/
def checked : Overflow → Nat → α → Option α
  | wraps, _, a => some a
  | stops, n, a => if n < sizeLimit then some a else none

@[simp] theorem checked_wraps : wraps.checked n a = some a := rfl

theorem checked_of_lt (h : n < sizeLimit) : o.checked n a = some a := by
  cases o with
  | wraps => rfl
  | stops => exact if_pos h

theorem checked_stops_of_le (h : sizeLimit ≤ n) : stops.checked n a = none :=
  if_neg (Nat.not_lt.2 h)

theorem checked_stops_eq_some_iff : stops.checked n a = some b ↔ n < sizeLimit ∧ a = b := by
  by_cases h : n < sizeLimit
  · simp [checked_of_lt h, h]
  · simp [checked_stops_of_le (Nat.le_of_not_lt h), h]

theorem checked_stops_eq_none_iff : stops.checked n a = none ↔ sizeLimit ≤ n := by
  refine ⟨fun h => Nat.le_of_not_lt fun hlt => ?_, checked_stops_of_le⟩
  rw [checked_of_lt hlt] at h
  exact absurd h (by simp)

/-- What has an outcome has the same one if sums and products wrap. -/
theorem eq_of_checked (h : o.checked n a = some b) : a = b := by
  cases o with
  | wraps => exact Option.some.inj h
  | stops => exact (checked_stops_eq_some_iff.1 h).2

end Overflow

def fitsSigned (n : Int) : Bool := Int64.minValue.toInt ≤ n ∧ n ≤ Int64.maxValue.toInt

def sizeOfDigits? (ds : List Char) : Option Nat :=
  if ds ≠ [] ∧ ds.all Char.isDigit then
    let n := ofDigits ds
    if n < sizeLimit then some n else none
  else none

/-- Reads a size: digits, with a plus sign before them or none. -/
def size? (s : String) : Option Nat :=
  match s.toList with
  | '+' :: ds => sizeOfDigits? ds
  | ds => sizeOfDigits? ds

end TreeCorpus.Number
