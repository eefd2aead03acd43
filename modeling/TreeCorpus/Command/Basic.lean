import TreeCorpus.Command.Arguments

/-!
# Commands

The commands of the program and the arguments that call them. Before the name of the command stand
only switches; the settings file may be named there or after it, and the later one holds.
-/

namespace TreeCorpus

open Number

inductive LayoutTarget where
  | sample (index : Nat)
  | edges (text : String)
  deriving DecidableEq, Repr

inductive Command where
  | init (force : Bool)
  | catalog
  | check
  | resolve (index : Nat)
  | locate (category : String) (number : Nat)
  | sample (index : Nat)
  | build (start : Nat) (stop : Option Nat) (output : Option String)
  | layout (target : LayoutTarget) (root : Option String) (width levelGap : Option Double)
  | classify (edges : String) (features model : Option String) (k : Option Nat)
  | rank (scores : String) (k : Option Nat)
  deriving DecidableEq

structure Invocation where
  command : Command
  config : Option String
  deriving DecidableEq

namespace Command

/-- The files that the arguments of a command name for reading. -/
def inputs : Command → List String
  | classify _ features model _ => features.toList ++ model.toList
  | _ => []

inductive Name where
  | init
  | catalog
  | check
  | resolve
  | locate
  | sample
  | build
  | layout
  | classify
  | rank
  deriving DecidableEq, Repr

def Name.of? (s : String) : Option Name :=
  match s with
  | "init" => some init
  | "catalog" => some catalog
  | "check" => some check
  | "resolve" => some resolve
  | "locate" => some locate
  | "sample" => some sample
  | "build" => some build
  | "layout" => some layout
  | "classify" => some classify
  | "rank" => some rank
  | _ => none

def commonSwitches : List Switch :=
  [⟨"config", none, .takes .path false⟩, ⟨"verbose", some 'v', .flag⟩, ⟨"help", some 'h', .help⟩]

/-- The grammar before the name of a command. -/
def mainGrammar : Grammar := ⟨commonSwitches ++ [⟨"version", some 'V', .version⟩], []⟩

namespace Name

def switches : Name → List Switch
  | init => [⟨"force", some 'f', .flag⟩]
  | build => [⟨"start", none, .takes .size false⟩, ⟨"end", none, .takes .size false⟩,
      ⟨"output", some 'o', .takes .path false⟩]
  | layout => [⟨"edges", none, .takes .text false⟩, ⟨"root", none, .takes .text false⟩,
      ⟨"width", none, .takes .decimal false⟩, ⟨"level-gap", none, .takes .decimal false⟩]
  | classify => [⟨"edges", none, .takes .text false⟩, ⟨"features", none, .takes .path false⟩,
      ⟨"model", none, .takes .path false⟩, ⟨"k", some 'k', .takes .size false⟩]
  | rank => [⟨"scores", none, .takes .text true⟩, ⟨"k", some 'k', .takes .size false⟩]
  | _ => []

def slots : Name → List Slot
  | resolve | sample | layout => [⟨"index", .size⟩]
  | locate => [⟨"category", .text⟩, ⟨"number", .size⟩]
  | _ => []

def grammar (c : Name) : Grammar := ⟨c.switches ++ commonSwitches, c.slots⟩

def command (gs : List (String × Given)) : Name → Except Usage Command
  | init => .ok (.init (isGiven gs "force"))
  | catalog => .ok .catalog
  | check => .ok .check
  | resolve => (required (givenSize gs "index")).map .resolve
  | sample => (required (givenSize gs "index")).map .sample
  | locate => match required (givenText gs "category"), required (givenSize gs "number") with
    | .ok category, .ok number => .ok (.locate category number)
    | .error u, _ | _, .error u => .error u
  | build =>
    .ok (.build ((givenSize gs "start").getD 0) (givenSize gs "end") (givenText gs "output"))
  | layout =>
    let call (t : LayoutTarget) : Except Usage Command :=
      .ok (.layout t (givenText gs "root") (givenDecimal gs "width") (givenDecimal gs "level-gap"))
    match givenSize gs "index", givenText gs "edges" with
    | some _, some _ => .error .argumentConflict
    | some index, none => call (.sample index)
    | none, some edges => call (.edges edges)
    | none, none => .error .missingRequiredArgument
  | classify => (required (givenText gs "edges")).map fun edges =>
    .classify edges (givenText gs "features") (givenText gs "model") (givenSize gs "k")
  | rank => (required (givenText gs "scores")).map (.rank · (givenSize gs "k"))

def read (c : Name) (arguments : List String) : Except Usage Invocation :=
  match c.grammar.read arguments with
  | .error u => .error u
  | .ok gs => (c.command gs).map (⟨·, givenText gs "config"⟩)

end Name

/-- The answer to a request for help with the given arguments: at most one command has help. -/
def helpUsage : List String → Usage
  | [] => .displayHelp
  | [name] => if name = "help" ∨ (Name.of? name).isSome then .displayHelp else .invalidSubcommand
  | _ => .invalidSubcommand

/-- The fault of a positional value before any command. After two dashes the name of a command is
no command. -/
def excessUsage (r : Reading) (argument : String) : Usage :=
  if r.ended && (argument = "help" || (Name.of? argument).isSome) then .unknownArgument
  else .invalidSubcommand

def missingUsage (r : Reading) : Usage :=
  match r.settle with
  | .error u => u
  | .ok r => if r.given.isEmpty then .displayHelpOnMissing else .missingSubcommand

def readFrom (r : Reading) : List String → Except Usage Invocation
  | [] => .error (missingUsage r)
  | a :: rest =>
    -- the value of a switch and what follows two dashes name no command
    match if r.ended || r.waits then none else Name.of? a with
    | some name => match name.read rest with
      | .error u => .error u
      | .ok call => r.settle.map fun r =>
        { call with config := call.config.or (givenText r.given "config") }
    | none =>
      if a = "help" && !r.ended && !r.waits then .error (helpUsage rest)
      else match mainGrammar.step (excessUsage r a) r a with
        | .error u => .error u
        | .ok r => readFrom r rest

def read (arguments : List String) : Except Usage Invocation := readFrom {} arguments

end Command

end TreeCorpus
