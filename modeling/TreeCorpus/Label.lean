import TreeCorpus.Error

/-!
# One-hot labels

The label of category number `i` of `n` is the vector of length `n` with a one at position `i` and
zeros elsewhere. Only such vectors decode.
-/

namespace TreeCorpus.Label

def encode (ordinal count : Nat) : Except Error (List UInt8) :=
  if ordinal < count then
    .ok ((List.range count).map fun i => if i = ordinal then 1 else 0)
  else .error (.invalidOrdinal ordinal count)

/-- The ordinal of a label: the position of its only entry that is not zero, if that is one. -/
def decode (label : List UInt8) : Option Nat :=
  match label.zipIdx.filter (·.1 ≠ 0) with
  | [(v, i)] => if v = 1 then some i else none
  | _ => none

end TreeCorpus.Label
