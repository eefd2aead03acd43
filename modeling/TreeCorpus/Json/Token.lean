import TreeCorpus.Json.Basic

/-!
# JSON tokens

A text is cut into brackets, separators and scalars. A string ends at the first quote that no
backslash precedes, and every backslash in it starts an escape; a number follows the grammar of
the format.
-/

namespace TreeCorpus.Json

/-- A token; scalars are kept as they are spelled. -/
inductive Token where
  | openArray
  | closeArray
  | openObject
  | closeObject
  | comma
  | colon
  | null
  | bool (b : Bool)
  | number (spelling : List Char)
  | string (spelling : List Char)
  deriving DecidableEq

def isSpace (c : Char) : Bool := c = ' ' || c = '\n' || c = '\t' || c = '\r'

/-- The spelling up to the closing quote and the text after it. `acc` holds the characters before,
the last first. -/
def takeString (acc : List Char) : List Char → Option (List Char × List Char)
  | [] => none
  | '"' :: rest => some (acc.reverse, rest)
  | '\\' :: 'u' :: a :: b :: c :: d :: rest =>
    if (hexUnit? a b c d).isSome then takeString (d :: c :: b :: a :: 'u' :: '\\' :: acc) rest
    else none
  | '\\' :: c :: rest =>
    if (escaped? c).isSome then takeString (c :: '\\' :: acc) rest else none
  | c :: rest => if c = '\\' ∨ c.toNat < 0x20 then none else takeString (c :: acc) rest

def takeDigits (cs : List Char) : Option (List Char × List Char) :=
  match cs.takeWhile Char.isDigit with
  | [] => none
  | ds => some (ds, cs.dropWhile Char.isDigit)

/-- The whole part of a number: a zero, or digits that start with another. -/
def takeWhole (cs : List Char) : Option (List Char × List Char) :=
  match takeDigits cs with
  | some ('0' :: _ :: _, _) => none
  | r => r

def takeFraction : List Char → Option (List Char × List Char)
  | '.' :: cs => (takeDigits cs).map fun r => ('.' :: r.1, r.2)
  | cs => some ([], cs)

def takeExponentSign : List Char → List Char × List Char
  | '+' :: cs => (['+'], cs)
  | '-' :: cs => (['-'], cs)
  | cs => ([], cs)

def takeExponent : List Char → Option (List Char × List Char)
  | [] => some ([], [])
  | c :: cs =>
    if c = 'e' ∨ c = 'E' then
      let (sign, rest) := takeExponentSign cs
      (takeDigits rest).map fun r => (c :: sign ++ r.1, r.2)
    else some ([], c :: cs)

def takeNumber (cs : List Char) : Option (List Char × List Char) := do
  let (sign, cs) := match cs with
    | '-' :: rest => (['-'], rest)
    | _ => ([], cs)
  let (whole, cs) ← takeWhole cs
  let (fraction, cs) ← takeFraction cs
  let (exponent, cs) ← takeExponent cs
  return (sign ++ whole ++ fraction ++ exponent, cs)

/-- The token at the start of a text that does not start with a space. -/
def takeToken : List Char → Option (Token × List Char)
  | '[' :: cs => some (.openArray, cs)
  | ']' :: cs => some (.closeArray, cs)
  | '{' :: cs => some (.openObject, cs)
  | '}' :: cs => some (.closeObject, cs)
  | ',' :: cs => some (.comma, cs)
  | ':' :: cs => some (.colon, cs)
  | '"' :: cs => (takeString [] cs).map fun r => (.string r.1, r.2)
  | 'n' :: 'u' :: 'l' :: 'l' :: cs => some (.null, cs)
  | 't' :: 'r' :: 'u' :: 'e' :: cs => some (.bool true, cs)
  | 'f' :: 'a' :: 'l' :: 's' :: 'e' :: cs => some (.bool false, cs)
  | cs => (takeNumber cs).map fun r => (.number r.1, r.2)

/-- The tokens of a text; every step takes at least one character, so as many steps as there are
characters are enough. -/
def tokensWithin (acc : List Token) : Nat → List Char → Option (List Token)
  | _, [] => some acc.reverse
  | 0, _ :: _ => none
  | n + 1, c :: cs =>
    if isSpace c then tokensWithin acc n cs
    else match takeToken (c :: cs) with
      | none => none
      | some (t, rest) => tokensWithin (t :: acc) n rest

def tokens? (cs : List Char) : Option (List Token) := tokensWithin [] cs.length cs

end TreeCorpus.Json
