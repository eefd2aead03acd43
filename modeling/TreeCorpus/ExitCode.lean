/-!
# Exit codes

A run ends with success, with a failure, with a failure of its input, or with a batch of which
some samples failed.
-/

namespace TreeCorpus

inductive ExitCode where
  | success
  | failure
  /-- The input was at fault: an index, an edge list, a feature table, a score. -/
  | invalidInput
  /-- A batch was finished and some of its samples failed. -/
  | partialFailure
  deriving DecidableEq, Repr

def ExitCode.number : ExitCode → Nat
  | success => 0
  | failure => 1
  | invalidInput => 2
  | partialFailure => 3

end TreeCorpus
