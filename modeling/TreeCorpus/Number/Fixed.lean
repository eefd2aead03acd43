import TreeCorpus.Number.Binary

/-!
# Text with a fixed number of places

A finite number is rounded to a number of decimal places, a half going to the even digit, and
written with exactly that many.
-/

namespace TreeCorpus.Number

/-- The digits of `num / den` with `places` of them after the point. -/
def fixedDigits (places num den : Nat) : List Char :=
  let ds := padDigits (places + 1) (roundDiv (num * Nat.pow 10 places) den)
  let whole := ds.take (ds.length - places)
  if places = 0 then whole else whole ++ '.' :: ds.drop (ds.length - places)

def Binary.fixed {f : Format} (places : Nat) (x : Binary f) : String :=
  let sign := if x.negative then "-" else ""
  match x.kind with
  | .nan => "NaN"
  | .infinite => sign ++ "inf"
  | .finite m q =>
    sign ++ String.ofList (fixedDigits places (m <<< q.toNat) (1 <<< (-q).toNat))

end TreeCorpus.Number
