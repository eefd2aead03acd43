import TreeCorpus.Command.Help
import TreeCorpus.Command.Run
import TreeCorpus.Disk.Edit

/-!
# The program

The files that a command reads are put on a disk, the command runs on that disk, and what it
printed and wrote is carried out.
-/

namespace TreeCorpus.Program

/-- Puts the item at a path on the disk, a directory without its entries. -/
def plantItem (d : Disk) (path : String) : IO Disk := do
  let place := (← IO.currentDir) / path
  if ← place.isDir then return d.plantDirectory path
  try
    let bytes ← IO.FS.readBinFile place
    let content := match String.fromUTF8? bytes with
      | some s => Content.text s
      | none => Content.binary bytes.toList
    return d.plant path (.file content)
  catch _ => return d

/-- Puts the directory at a path on the disk, and its entries with `plantBelow`. -/
def plantEntries (plantBelow : Disk → String → IO Disk) (d : Disk) (path : String) : IO Disk := do
  let place := (← IO.currentDir) / path
  unless ← place.isDir do
    return ← plantItem d path
  let mut d := d.plantDirectory path
  for entry in ← place.readDir do
    let name := Path.join path entry.fileName
    match (← entry.path.symlinkMetadata).type with
    | .symlink =>
      let target := (← IO.FS.realPath entry.path).toString
      d ← plantBelow (d.plant name (.link target)) target
    | _ => d ← plantBelow d name
  return d

/-- Puts a catalog on the disk: the root, the categories and the files in them. -/
def plantCatalog (d : Disk) (root : String) : IO Disk :=
  plantEntries (plantEntries plantItem) d root

def diskOf (call : Invocation) : IO Disk := do
  let here := (← IO.currentDir).toString
  let d : Disk := ⟨[], (Disk.segmentNames here).filter (· ≠ "")⟩
  let d ← plantItem (d.plantDirectory here) (call.config.getD settingsFile)
  match call.settings d with
  | .error _ => return d
  | .ok c =>
    let d ← plantCatalog d c.catalog.root
    let d ← (call.command.files c).foldlM plantItem d
    match call.command.output? with
    | none => return d
    | some path =>
      let above := Path.ofSegments (Path.segments path).dropLast
      let d ← if above.isEmpty then pure d else plantItem d above
      plantItem d path

/-- Whether output is colored: not where the environment forbids it, and else on a terminal. -/
def wantsColors : IO Bool := do
  if (← IO.getEnv "NO_COLOR").isSome then return false
  (← IO.getStdout).isTty

/-- Prints the outcome of a call and carries out what it wrote. -/
def finish (colors : Bool) (call : Invocation) (o : Command.Outcome) : IO UInt32 := do
  o.lines.forM IO.println
  match o.result with
  | .error f =>
    IO.eprintln ((Console.bright .red).paint colors "error:" ++ " " ++ f.message)
    return UInt32.ofNat f.exitCode.number
  | .ok code =>
    if let some path := call.command.output? then
      if let .ok text := o.disk.readText path then
        IO.FS.writeFile path text
    return UInt32.ofNat code.number

end TreeCorpus.Program

def main (arguments : List String) : IO UInt32 := do
  match TreeCorpus.Command.read arguments with
  | .error u =>
    if u.exitCode = .success then IO.println u.message else IO.eprintln u.message
    return UInt32.ofNat u.exitCode.number
  | .ok call =>
    let colors ← TreeCorpus.Program.wantsColors
    let d ← TreeCorpus.Program.diskOf call
    TreeCorpus.Program.finish colors call (call.run colors d)
