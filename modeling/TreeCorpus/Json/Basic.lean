import TreeCorpus.Number.Hex

/-!
# JSON values

A value keeps the spelling of its scalars: the digits of a number and the text between the quotes
of a string. `quote` spells a text and `unquote?` reads a spelling back; `compact` and `pretty`
write a value.
-/

namespace TreeCorpus

/-- A JSON value; numbers and strings are kept as they are spelled. -/
inductive Json where
  | null
  | bool (b : Bool)
  | number (spelling : List Char)
  | string (spelling : List Char)
  | array (items : List Json)
  | object (members : List (List Char × Json))

namespace Json

open Number

/-- The spelling of a character in a string: control characters, quotes and backslashes are
escaped. -/
def quoteChar (c : Char) : List Char :=
  if c = '"' then ['\\', '"']
  else if c = '\\' then ['\\', '\\']
  else if c = '\x08' then ['\\', 'b']
  else if c = '\x0c' then ['\\', 'f']
  else if c = '\n' then ['\\', 'n']
  else if c = '\r' then ['\\', 'r']
  else if c = '\t' then ['\\', 't']
  else if c.toNat < 0x20 then
    ['\\', 'u', '0', '0', hexDigit (c.toNat / 16), hexDigit (c.toNat % 16)]
  else [c]

def quote (cs : List Char) : List Char := cs.flatMap quoteChar

def hexUnit? (a b c d : Char) : Option Nat := do
  let a ← hexValue? a
  let b ← hexValue? b
  let c ← hexValue? c
  let d ← hexValue? d
  return ((a * 16 + b) * 16 + c) * 16 + d

def escaped? (c : Char) : Option Char :=
  if c = '"' ∨ c = '\\' ∨ c = '/' then some c
  else if c = 'b' then some '\x08'
  else if c = 'f' then some '\x0c'
  else if c = 'n' then some '\n'
  else if c = 'r' then some '\r'
  else if c = 't' then some '\t'
  else none

/-- Reads a spelling. Two surrogates in order make one character and a single one makes none.
`acc` holds the characters read so far, the last first. -/
def unquoteFrom (acc : List Char) : List Char → Option (List Char)
  | [] => some acc.reverse
  | '\\' :: 'u' :: a :: b :: c :: d :: rest =>
    match hexUnit? a b c d with
    | none => none
    | some u =>
      if 0xDC00 ≤ u ∧ u ≤ 0xDFFF then none
      else if 0xD800 ≤ u ∧ u ≤ 0xDBFF then
        match rest with
        | '\\' :: 'u' :: a :: b :: c :: d :: rest =>
          match hexUnit? a b c d with
          | none => none
          | some v =>
            if 0xDC00 ≤ v ∧ v ≤ 0xDFFF then
              unquoteFrom (Char.ofNat (0x10000 + (u - 0xD800) * 0x400 + (v - 0xDC00)) :: acc) rest
            else none
        | _ => none
      else unquoteFrom (Char.ofNat u :: acc) rest
  | '\\' :: c :: rest => match escaped? c with
    | none => none
    | some e => unquoteFrom (e :: acc) rest
  | c :: rest => if c = '\\' then none else unquoteFrom (c :: acc) rest

def unquote? (cs : List Char) : Option (List Char) := unquoteFrom [] cs

def ofString (s : String) : Json := string (quote s.toList)

def ofNat (n : Nat) : Json := number (Nat.toDigits 10 n)

/-- The value of a number that has a text; any other number is null. -/
def ofNumberText : Option String → Json
  | some s => number s.toList
  | none => null

def ofMembers (ms : List (String × Json)) : Json :=
  object (ms.map fun m => (quote m.1.toList, m.2))

/-! ## Writing -/

def separate (sep : List Char) : List (List Char) → List Char
  | [] => []
  | [p] => p
  | p :: ps => p ++ sep ++ separate sep ps

mutual

/-- The value without any space. -/
def compact : Json → List Char
  | null => ['n', 'u', 'l', 'l']
  | bool true => ['t', 'r', 'u', 'e']
  | bool false => ['f', 'a', 'l', 's', 'e']
  | number s => s
  | string s => '"' :: s ++ ['"']
  | array items => '[' :: separate [','] (compactItems items) ++ [']']
  | object members => '{' :: separate [','] (compactMembers members) ++ ['}']

def compactItems : List Json → List (List Char)
  | [] => []
  | v :: vs => compact v :: compactItems vs

def compactMembers : List (List Char × Json) → List (List Char)
  | [] => []
  | (k, v) :: ms => ('"' :: k ++ '"' :: ':' :: compact v) :: compactMembers ms

end

def lineBreak (level : Nat) : List Char := '\n' :: List.replicate (2 * level) ' '

/-- Parts between brackets, each on a line of its own one level deeper. -/
def bracketed (opening closing : Char) (level : Nat) (parts : List (List Char)) : List Char :=
  if parts.isEmpty then [opening, closing]
  else opening :: lineBreak (level + 1) ++ separate (',' :: lineBreak (level + 1)) parts ++
    lineBreak level ++ [closing]

mutual

/-- The value with each item and each member on a line of its own. -/
def prettyAt (level : Nat) : Json → List Char
  | array items => bracketed '[' ']' level (prettyItems (level + 1) items)
  | object members => bracketed '{' '}' level (prettyMembers (level + 1) members)
  | null => ['n', 'u', 'l', 'l']
  | bool true => ['t', 'r', 'u', 'e']
  | bool false => ['f', 'a', 'l', 's', 'e']
  | number s => s
  | string s => '"' :: s ++ ['"']

def prettyItems (level : Nat) : List Json → List (List Char)
  | [] => []
  | v :: vs => prettyAt level v :: prettyItems level vs

def prettyMembers (level : Nat) : List (List Char × Json) → List (List Char)
  | [] => []
  | (k, v) :: ms => ('"' :: k ++ '"' :: ':' :: ' ' :: prettyAt level v) :: prettyMembers level ms

end

def write (v : Json) : String := String.ofList v.compact

def pretty (v : Json) : String := String.ofList (v.prettyAt 0)

end Json

end TreeCorpus
