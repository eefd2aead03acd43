import TreeCorpus.Disk.Path

/-!
# The disk

A disk maps locations to files, directories and links. A path is resolved segment by segment from
the working directory; a link is replaced by its target, a limited number of times. Files hold text,
or bytes that are no text.
-/

namespace TreeCorpus

/-- The names on the way from the root of the disk. -/
abbrev Location : Type := List String

inductive Content where
  | text (s : String)
  /-- Bytes that are not the encoding of a text. -/
  | binary (bytes : List UInt8)
  deriving DecidableEq

inductive Item where
  | file (content : Content)
  | directory
  /-- A symbolic link; its target is read from the directory that holds the link. -/
  | link (target : String)
  deriving DecidableEq

inductive DiskFault where
  | notFound
  | notADirectory
  | isADirectory
  | tooManyLinks
  | nameTooLong
  | zeroInPath
  | notText
  deriving DecidableEq, Repr

def DiskFault.message : DiskFault → String
  | notFound => "No such file or directory (os error 2)"
  | notADirectory => "Not a directory (os error 20)"
  | isADirectory => "Is a directory (os error 21)"
  | tooManyLinks => "Too many levels of symbolic links (os error 40)"
  | nameTooLong => "File name too long (os error 36)"
  | zeroInPath => "file name contained an unexpected NUL byte"
  | notText => "stream did not contain valid UTF-8"

/-- The items of a disk, the latest first, and the working directory. -/
structure Disk where
  items : List (Location × Item)
  workDir : Location

namespace Disk

def empty : Disk := ⟨[], ["work"]⟩

/-- The item at a location. The root and the working directory are directories. -/
def lookup (d : Disk) (loc : Location) : Option Item :=
  if loc = [] ∨ loc = d.workDir then some .directory else d.items.lookup loc

inductive Walk where
  | arrived (loc : Location)
  /-- The directory `loc` has no entry `name`; `rest` was to follow. -/
  | missing (loc : Location) (name : String) (rest : List String)
  /-- A link in the directory `loc`; `rest` was to follow. -/
  | linked (loc : Location) (target : String) (rest : List String)
  | failed (fault : DiskFault)
  deriving DecidableEq, Repr

/-- The longest name of an entry, in bytes. -/
def nameLimit : Nat := 255

/-- Walks along the segments up to the first link. -/
def walk (d : Disk) (loc : Location) : List String → Walk
  | [] => .arrived loc
  | name :: rest =>
    -- whatever the segment is, empty ones and points too, it needs a directory before it
    if d.lookup loc ≠ some .directory then .failed .notADirectory
    else if name = "" ∨ name = "." then d.walk loc rest
    else if name = ".." then d.walk loc.dropLast rest
    else if nameLimit < name.utf8ByteSize then .failed .nameTooLong
    else match d.lookup (loc ++ [name]) with
      | none => .missing loc name rest
      | some (.link target) => .linked loc target rest
      | some _ => d.walk (loc ++ [name]) rest

/-- A path has fewer bytes than this. -/
def pathLimit : Nat := 4096

def segmentNames (path : String) : List String := (Path.segments path).map String.ofList

def linkLimit : Nat := 40

/-- Whether only slashes follow, at least one. -/
def onlySlashes (rest : List String) : Bool := !rest.isEmpty && rest.all String.isEmpty

/-- Follows links, at most `budget` of them. On the way to a file that is to be made, a link with
only slashes after it is not followed: no file can be made there. -/
def follow (d : Disk) (making : Bool) (budget : Nat) (loc : Location) (segs : List String) : Walk :=
  match d.walk loc segs with
  | .linked at' target rest =>
    if making && onlySlashes rest then .failed .isADirectory
    else match budget with
      | 0 => .failed .tooManyLinks
      | budget + 1 =>
        d.follow making budget (if Path.isAbsolute target then [] else at')
          (segmentNames target ++ rest)
  | w => w

def startOf (d : Disk) (path : String) : Location :=
  if Path.isAbsolute path then [] else d.workDir

/-- Resolves a path, to something that is there or to a file that is to be made. The empty path
leads nowhere. -/
def resolveFor (d : Disk) (making : Bool) (path : String) : Walk :=
  if path.isEmpty then .failed .notFound
  else if path.toList.contains '\x00' then .failed .zeroInPath
  else if pathLimit ≤ path.utf8ByteSize then .failed .nameTooLong
  else d.follow making linkLimit (d.startOf path) (segmentNames path)

def resolve (d : Disk) (path : String) : Walk := d.resolveFor false path

def item? (d : Disk) (path : String) : Except DiskFault Item :=
  match d.resolve path with
  | .arrived loc => match d.lookup loc with
    | some i => .ok i
    | none => .error .notFound
  | .failed fault => .error fault
  | _ => .error .notFound

def pathExists (d : Disk) (path : String) : Bool :=
  match d.item? path with
  | .ok _ => true
  | .error _ => false

def isDirectory (d : Disk) (path : String) : Bool :=
  match d.item? path with
  | .ok .directory => true
  | _ => false

def isFile (d : Disk) (path : String) : Bool :=
  match d.item? path with
  | .ok (.file _) => true
  | _ => false

def readContent (d : Disk) (path : String) : Except DiskFault Content :=
  match d.item? path with
  | .ok (.file c) => .ok c
  | .ok _ => .error .isADirectory
  | .error fault => .error fault

def readText (d : Disk) (path : String) : Except DiskFault String :=
  match d.readContent path with
  | .ok (.text s) => .ok s
  | .ok (.binary _) => .error .notText
  | .error fault => .error fault

/-- The names and items directly below a location, each name once. -/
def entriesAt (d : Disk) (loc : Location) : List (String × Item) :=
  let names := d.items.filterMap fun e =>
    if e.1.dropLast = loc then e.1.getLast? else none
  let names := if d.workDir.dropLast = loc then names ++ d.workDir.getLast?.toList else names
  names.eraseDups.filterMap fun n => (d.lookup (loc ++ [n])).map (n, ·)

def entries (d : Disk) (path : String) : List (String × Item) :=
  match d.resolve path with
  | .arrived loc => d.entriesAt loc
  | _ => []

def put (d : Disk) (loc : Location) (i : Item) : Disk :=
  { d with items := (loc, i) :: d.items.filter (·.1 ≠ loc) }

/-- What was put at a location is found there, unless a directory always is. -/
theorem lookup_put_self (d : Disk) {loc : Location} (i : Item) (h₁ : loc ≠ [])
    (h₂ : loc ≠ d.workDir) : (d.put loc i).lookup loc = some i := by
  have h : ¬(loc = [] ∨ loc = d.workDir) := fun h => h.elim h₁ h₂
  simp [lookup, put, h]

/-- Putting an item at a location changes nothing elsewhere. -/
theorem lookup_put_of_ne (d : Disk) {loc other : Location} (i : Item) (h : other ≠ loc) :
    (d.put loc i).lookup other = d.lookup other := by
  have hb : (other == loc) = false := beq_eq_false_iff_ne.2 h
  have hl : ((loc, i) :: d.items.filter (·.1 ≠ loc)).lookup other = d.items.lookup other := by
    rw [List.lookup_cons, hb]
    show (d.items.filter (·.1 ≠ loc)).lookup other = d.items.lookup other
    induction d.items with
    | nil => rfl
    | cons e es ih =>
      obtain ⟨k, v⟩ := e
      by_cases hk : k = loc
      · subst hk
        rw [List.filter_cons_of_neg (by simp), ih, List.lookup_cons, hb]
      · rw [List.filter_cons_of_pos (by simpa using hk), List.lookup_cons, List.lookup_cons, ih]
  unfold lookup put
  simp only [hl]

/-- Writes the file at a path. The file is made if its directory exists. -/
def writeContent (d : Disk) (path : String) (c : Content) : Except DiskFault Disk :=
  match d.resolveFor true path with
  | .arrived loc =>
    if d.lookup loc = some .directory then .error .isADirectory
    else .ok (d.put loc (.file c))
  | .missing loc name [] => .ok (d.put (loc ++ [name]) (.file c))
  | .missing _ _ rest => .error (if onlySlashes rest then .isADirectory else .notFound)
  | .failed fault => .error fault
  -- not met: following links never ends at one
  | .linked .. => .error .tooManyLinks

def writeText (d : Disk) (path : String) (s : String) : Except DiskFault Disk :=
  d.writeContent path (.text s)

end Disk

end TreeCorpus
