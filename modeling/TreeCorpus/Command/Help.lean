import TreeCorpus.Command.Basic

/-!
# Help

What the program says about itself, and about arguments that call no command. Which fault they have
is settled by the grammar of the arguments; the sentences are this library's own.
-/

namespace TreeCorpus.Command

def version : String := "solgraph 0.3.0"

def helpLines : List String :=
  ["Build labeled co-occurrence graph datasets and rank classifier output",
    "",
    "Usage: solgraph [--config FILE] [--verbose] COMMAND",
    "",
    "  init [--force]                      write a default settings file",
    "  catalog                             list categories and solution counts",
    "  check                               report gaps in solution numbering",
    "  resolve INDEX                       show the solution of an index",
    "  locate CATEGORY NUMBER              show the index of a solution",
    "  sample INDEX                        build one sample and print its figures",
    "  build [--start N] [--end N] [--output FILE]",
    "                                      build a range of samples",
    "  layout INDEX | --edges TEXT [--root ID] [--width X] [--level-gap X]",
    "                                      print layout coordinates",
    "  classify --edges TEXT [--features FILE] [--model FILE] [-k N]",
    "                                      classify an edge list",
    "  rank --scores LIST [-k N]           rank a score list against the catalog"]

/-- What is said about arguments that call no command. -/
def Usage.message : Usage → String
  | unknownArgument => "unexpected argument"
  | valueValidation => "a value is not a number"
  | invalidValue => "a value is required"
  | tooManyValues => "a switch takes no value"
  | missingRequiredArgument => "a required argument is missing"
  | argumentConflict => "two arguments exclude each other"
  | invalidSubcommand => "unknown command"
  | missingSubcommand => "a command is required"
  | displayHelp | displayHelpOnMissing => String.intercalate "\n" helpLines
  | displayVersion => version

end TreeCorpus.Command
