import TreeCorpus.ExitCode
import TreeCorpus.Number.Decimal
import TreeCorpus.Number.Size

/-!
# Reading arguments

The arguments after a command are switches, with or without a value, and positional values. A value
is put aside when it is read and checked only when the next switch or positional value comes, or at
the end, so the first fault in this order is the one that is reported. Two dashes alone end the
switches.
-/

namespace TreeCorpus.Command

open Number

inductive Usage where
  | unknownArgument
  /-- A value is no size or no number. -/
  | valueValidation
  /-- A value is missing, or an empty path. -/
  | invalidValue
  /-- A value stands with a switch that takes none. -/
  | tooManyValues
  | missingRequiredArgument
  /-- A switch was given twice, or with one that excludes it. -/
  | argumentConflict
  | invalidSubcommand
  | missingSubcommand
  | displayHelp
  | displayVersion
  | displayHelpOnMissing
  deriving DecidableEq, Repr

/-- Asking for help or the version is no failure. -/
def Usage.exitCode : Usage → ExitCode
  | displayHelp | displayVersion => .success
  | _ => .invalidInput

inductive ValueKind where
  | text
  /-- A text that is not empty. -/
  | path
  | size
  | decimal
  deriving DecidableEq, Repr

inductive Role where
  | flag
  | help
  | version
  /-- Takes a value, which may start with a dash if `dashes` is set. -/
  | takes (kind : ValueKind) (dashes : Bool)
  deriving DecidableEq, Repr

structure Switch where
  name : String
  letter : Option Char
  role : Role
  deriving DecidableEq, Repr

structure Slot where
  name : String
  kind : ValueKind
  deriving DecidableEq, Repr

structure Grammar where
  switches : List Switch
  slots : List Slot
  deriving DecidableEq, Repr

inductive Given where
  | set
  | text (s : String)
  | size (n : Nat)
  | decimal (x : Double)
  deriving DecidableEq

def ValueKind.read (v : String) : ValueKind → Except Usage Given
  | text => .ok (.text v)
  | path => if v.isEmpty then .error .invalidValue else .ok (.text v)
  | size => match size? v with
    | some n => .ok (.size n)
    | none => .error .valueValidation
  | decimal => match Binary.ofText? v with
    | some x => .ok (.decimal x)
    | none => .error .valueValidation

/-- A value that is put aside, or a switch that still waits for one. -/
structure Pending where
  name : String
  kind : ValueKind
  dashes : Bool
  value : Option String
  deriving DecidableEq, Repr

structure Reading where
  given : List (String × Given) := []
  pending : Option Pending := none
  /-- How many positional values there were. -/
  filled : Nat := 0
  /-- Whether two dashes ended the switches. -/
  ended : Bool := false
  deriving DecidableEq

inductive Shape where
  | dashes
  /-- A long name, with what follows its equals sign. -/
  | long (name : String) (value : Option String)
  | letters (cs : List Char)
  | plain
  deriving DecidableEq, Repr

/-- The shape of an argument; a single dash is a plain one. -/
def Shape.of (argument : String) : Shape :=
  match argument.toList with
  | ['-', '-'] => dashes
  | '-' :: '-' :: cs =>
    long (String.ofList (cs.takeWhile (· ≠ '=')))
      (match cs.dropWhile (· ≠ '=') with
      | [] => none
      | _ :: v => some (String.ofList v))
  | '-' :: c :: cs => letters (c :: cs)
  | _ => plain

namespace Reading

/-- Records what was given for a name, which must be the first for it. -/
def record (r : Reading) (name : String) (g : Except Usage Given) : Except Usage Reading :=
  if (r.given.lookup name).isSome then .error .argumentConflict
  else g.map fun g => { r with given := r.given ++ [(name, g)] }

/-- Checks the value that was put aside. -/
def settle (r : Reading) : Except Usage Reading :=
  match r.pending with
  | none => .ok r
  | some p => match p.value with
    | none => .error .invalidValue
    | some v => record { r with pending := none } p.name (p.kind.read v)

def waits (r : Reading) : Bool := !r.ended && r.pending.any (·.value.isNone)

/-- Whether a switch waits for a value that may start with a dash. -/
def waitsForDashes (r : Reading) : Bool := r.waits && r.pending.any Pending.dashes

def receive (r : Reading) (v : String) : Reading :=
  { r with pending := r.pending.map fun p => { p with value := some v } }

def apply (r : Reading) (s : Switch) : Except Usage Reading :=
  match r.settle with
  | .error u => .error u
  | .ok r => match s.role with
    | .help => .error .displayHelp
    | .version => .error .displayVersion
    | _ => r.record s.name (.ok .set)

/-- Starts a switch that takes a value, which may stand with it already. -/
def start (r : Reading) (s : Switch) (kind : ValueKind) (dashes : Bool) (value : Option String) :
    Except Usage Reading :=
  match r.settle with
  | .error u => .error u
  | .ok r => match value with
    | some v => r.record s.name (kind.read v)
    | none => .ok { r with pending := some ⟨s.name, kind, dashes, none⟩ }

end Reading

namespace Grammar

def readLong (g : Grammar) (r : Reading) (name : String) (value : Option String) :
    Except Usage Reading :=
  match g.switches.find? (·.name == name) with
  | none => .error .unknownArgument
  | some s => match s.role, value with
    | .takes kind dashes, _ => r.start s kind dashes value
    | _, none => r.apply s
    | _, some _ => .error .tooManyValues

/-- What stands with a letter: nothing, or a value with an equals sign before it or none. -/
def attached : List Char → Option String
  | [] => none
  | '=' :: cs => some (String.ofList cs)
  | cs => some (String.ofList cs)

/-- Reads switches by their letters; one that takes a value takes all that follows. -/
def readLetters (g : Grammar) (r : Reading) : List Char → Except Usage Reading
  | [] => .ok r
  | c :: cs => match g.switches.find? (·.letter == some c) with
    | none => .error .unknownArgument
    | some s => match s.role with
      | .takes kind dashes => r.start s kind dashes (attached cs)
      | _ => match r.apply s with
        | .error u => .error u
        | .ok r => readLetters g r cs

/-- Reads a positional value, `excess` being the fault of one too many. -/
def readSlot (g : Grammar) (excess : Usage) (r : Reading) (v : String) : Except Usage Reading :=
  match g.slots[r.filled]? with
  | none => .error excess
  | some s => r.settle.map fun r =>
    { r with pending := some ⟨s.name, s.kind, false, some v⟩, filled := r.filled + 1 }

def step (g : Grammar) (excess : Usage) (r : Reading) (argument : String) :
    Except Usage Reading :=
  if r.ended then g.readSlot excess r argument
  -- a score list may start with a minus sign, so its switch takes what comes
  else if r.waitsForDashes then .ok (r.receive argument)
  else match Shape.of argument with
    | .dashes => .ok { r with ended := true }
    | .long name value => g.readLong r name value
    | .letters cs => g.readLetters r cs
    | .plain => if r.waits then .ok (r.receive argument) else g.readSlot excess r argument

def read (g : Grammar) (arguments : List String) : Except Usage (List (String × Given)) :=
  match arguments.foldlM (g.step .unknownArgument) {} with
  | .error u => .error u
  | .ok r => r.settle.map Reading.given

end Grammar

/-! ## What was given -/

def isGiven (gs : List (String × Given)) (name : String) : Bool := (gs.lookup name).isSome

def givenText (gs : List (String × Given)) (name : String) : Option String :=
  match gs.lookup name with
  | some (.text s) => some s
  | _ => none

def givenSize (gs : List (String × Given)) (name : String) : Option Nat :=
  match gs.lookup name with
  | some (.size n) => some n
  | _ => none

def givenDecimal (gs : List (String × Given)) (name : String) : Option Double :=
  match gs.lookup name with
  | some (.decimal x) => some x
  | _ => none

def required {α : Type} : Option α → Except Usage α
  | some a => .ok a
  | none => .error .missingRequiredArgument

end TreeCorpus.Command
