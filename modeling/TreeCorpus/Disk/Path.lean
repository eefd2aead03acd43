import TreeCorpus.Text.Blank

/-!
# Paths

A path is a text whose segments are separated by slashes. Joining an absolute path replaces what
is before it. The last segment that is neither empty nor a point names a file, unless it is `..`.
Its extension is what follows its last point, unless it starts with that point.
-/

namespace TreeCorpus.Path

def segments (path : String) : List (List Char) := Text.pieces (· == '/') path.toList

def ofSegments (segs : List (List Char)) : String :=
  String.intercalate "/" (segs.map String.ofList)

def isAbsolute (path : String) : Bool := path.toList.head? == some '/'

/-- `part` below `base`; an absolute `part` stands alone. -/
def join (base part : String) : String :=
  if isAbsolute part then part
  else if base.isEmpty || base.toList.getLast? == some '/' then base ++ part
  else base ++ "/" ++ part

/-- A file name without its extension. A point at the start begins no extension. -/
def stem (name : List Char) : List Char :=
  match (name.reverse.dropWhile (· != '.')).drop 1 with
  | [] => name
  | before => before.reverse

/-- A path cut at the segment that names its file. -/
structure Cut where
  before : List (List Char)
  name : List Char
  /-- Whether segments that name nothing follow. -/
  trailing : Bool
  deriving DecidableEq, Repr

def cut? (path : String) : Option Cut :=
  let segs := (segments path).reverse
  let rest := segs.dropWhile fun s => s == [] || s == ['.']
  match rest with
  | [] => none
  | name :: before =>
    if name = ['.', '.'] then none
    else some ⟨before.reverse, name, rest.length < segs.length⟩

/-- The path with the extension of its file replaced, or one added. A path that names no file takes
none, and neither does one of which only `..` is left when the old extension is cut off. -/
def withExtension (path ext : String) : String :=
  match cut? path with
  | none => path
  | some c =>
    let name :=
      if stem c.name = ['.'] ∧ !c.trailing then ['.', '.']
      else if ext.isEmpty then stem c.name
      else stem c.name ++ '.' :: ext.toList
    ofSegments (c.before ++ [name])

end TreeCorpus.Path
