import TreeCorpus.Catalog.Basic
import TreeCorpus.Number.Size
import TreeCorpus.Settings.Basic

/-!
# Scanning a catalog

The categories are those of the settings or else the directories below the root in the byte order
of their names, links to directories included and hidden entries left out. A category's numbers
are those of the files named `category-number.extension` directly in its directory; links are not
followed there.
-/

namespace TreeCorpus.Catalog

open Number

/-- The order of names by the bytes of their encoding. -/
def nameLe (a b : String) : Bool := !(b.toUTF8.toList < a.toUTF8.toList)

def isHidden (name : String) : Bool := name.toList.head? == some '.'

/-- Whether an entry of the root is a category. A link that leads nowhere, or back to the root
itself, is a fault. -/
def entryIsCategory (d : Disk) (root : String) (rootLocation : Location) (name : String)
    (i : Item) : Except Error Bool :=
  let path := Path.join root name
  let bad : Except Error Bool := .error (.catalog path .badEntry)
  match i with
  | .directory => .ok (!isHidden name)
  | .file _ => .ok false
  -- a hidden link is followed like any other, and fails where it leads nowhere
  | .link _ => match d.resolve path with
    | .arrived loc =>
      if loc = rootLocation then bad
      else .ok (!isHidden name && d.lookup loc == some .directory)
    | _ => bad

def categoryNames (d : Disk) (root : String) (rootLocation : Location) :
    List (String × Item) → Except Error (List String)
  | [] => .ok []
  | (name, i) :: rest =>
    match entryIsCategory d root rootLocation name i with
    | .error e => .error e
    | .ok keep => (categoryNames d root rootLocation rest).map fun names =>
        if keep then name :: names else names

/-- The categories below the root, in the byte order of their names. -/
def categoryDirectories (d : Disk) (root : String) : Except Error (List String) :=
  match d.resolve root with
  | .arrived loc =>
    categoryNames d root loc ((d.entriesAt loc).mergeSort fun a b => nameLe a.1 b.1)
  | _ => .error (.catalog root .rootNotADirectory)

/-- The number in a file name of the form `category-number.extension`. -/
def solutionNumber? (category extension fileName : String) : Option Nat :=
  let before := category.toList ++ ['-']
  let after := '.' :: extension.toList
  let cs := fileName.toList
  if before.isPrefixOf cs && after.isSuffixOf (cs.drop before.length) then
    let digits := (cs.drop before.length).take (cs.length - before.length - after.length)
    -- zeros may stand before the number, so several names can spell it
    match sizeOfDigits? digits with
    | some n => if 1 ≤ n then some n else none
    | none => none
  else none

/-- The numbers of the solution files of a category, in ascending order. -/
def solutionNumbers (d : Disk) (root extension category : String) : Except Error (List Nat) :=
  let directory := Path.join root category
  if d.isDirectory directory then
    let found := (d.entries directory).filterMap fun e => match e.2 with
      | .file _ => solutionNumber? category extension e.1
      | _ => none
    .ok (found.mergeSort (· ≤ ·))
  else .error (.catalog directory (.missingCategory category))

def scanHoldings (d : Disk) (s : CatalogSettings) : List String → Except Error (List Holding)
  | [] => .ok []
  | name :: rest => match solutionNumbers d s.root s.extension name with
    | .error e => .error e
    | .ok numbers => (scanHoldings d s rest).map
        (⟨name, numbers, (s.perCategoryLimit.map (min numbers.length)).getD numbers.length⟩ :: ·)

/-- The names of the categories before the limit is applied. -/
def listing (d : Disk) (s : CatalogSettings) : Except Error (List String) :=
  if s.categories = [] then categoryDirectories d s.root else .ok s.categories

def load (d : Disk) (s : CatalogSettings) : Except Error Catalog :=
  if d.isDirectory s.root then
    match listing d s with
    | .error e => .error e
    | .ok names =>
      (scanHoldings d s ((s.categoryLimit.map (names.take ·)).getD names)).map
        (⟨s.root, s.extension, ·⟩)
  else .error (.catalog s.root .rootNotADirectory)

end TreeCorpus.Catalog
