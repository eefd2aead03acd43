import TreeCorpus.Disk.Basic

/-!
# Laying out a disk

Items are put on a disk by path, and the directories above them are made as needed. Links on the
way to an item are followed; the item itself may be a link. Removing an item removes what is below
it. Where a file or a link that leads nowhere is in the way, nothing more is done.
-/

namespace TreeCorpus.Disk

/-- Goes along names from a directory, makes the directories that are missing, and gives the
location of the last one. -/
def makeDirectories (d : Disk) (loc : Location) : List String → Option (Disk × Location)
  | [] => some (d, loc)
  | name :: rest =>
    let below := loc ++ [name]
    match d.follow false linkLimit loc [name] with
    | .arrived next =>
      if d.lookup next = some .directory then d.makeDirectories next rest else none
    | .missing .. =>
      -- what is missing may be the target of a link that stands here
      if (d.lookup below).isNone then (d.put below .directory).makeDirectories below rest
      else none
    | _ => none

/-- Makes the directory above the file that a path names, and gives the location of the file. -/
def place? (d : Disk) (path : String) : Option (Disk × Location) :=
  (Path.cut? path).bind fun c =>
    (d.makeDirectories (d.startOf path) (c.before.map String.ofList)).map fun e =>
      (e.1, e.2 ++ [String.ofList c.name])

def plantDirectory (d : Disk) (path : String) : Disk :=
  ((d.makeDirectories (d.startOf path) (segmentNames path)).map Prod.fst).getD d

def plant (d : Disk) (path : String) (i : Item) : Disk :=
  match d.place? path with
  | some (d', loc) => d'.put loc i
  | none => d

def store (d : Disk) (path : String) (c : Content) : Disk :=
  match d.place? path with
  | some (d', _) => (d'.writeContent path c).toOption.getD d'
  | none => d

/-- Removes the item that a path names, and everything below it. -/
def remove (d : Disk) (path : String) : Disk :=
  match Path.cut? path with
  | none => d
  | some c => match d.follow false linkLimit (d.startOf path) (c.before.map String.ofList) with
    | .arrived loc =>
      let gone := loc ++ [String.ofList c.name]
      { d with items := d.items.filter fun e => !gone.isPrefixOf e.1 }
    | _ => d

end TreeCorpus.Disk
