import TreeCorpus.Graph.Basic
import TreeCorpus.Text.Blank

/-!
# Edge lists

An edge list holds one `parent child` pair a line. Blank lines are skipped; a line with another
number of words, an edge from a node to itself, a repeated edge and a list without edges are
faults. The first faulty line decides.
-/

namespace TreeCorpus

inductive EdgeFault where
  /-- The line does not hold two words. -/
  | notAPair (line : String)
  | selfLoop (node : String)
  | duplicate (parent child : String)
  deriving DecidableEq, Repr

inductive EdgeListFault where
  | atLine (number : Nat) (fault : EdgeFault)
  /-- No line holds an edge. -/
  | noEdges
  deriving DecidableEq, Repr

def EdgeFault.message : EdgeFault → String
  | notAPair line => s!"expected 'parent child', got '{line}'"
  | selfLoop node => s!"self-loop on '{node}'"
  | duplicate parent child => s!"duplicate edge '{parent} {child}'"

def EdgeListFault.message : EdgeListFault → String
  | atLine n fault => s!"line {n}: {fault.message}"
  | noEdges => "edge list is empty"

namespace Graph

def readLine (g : Graph) (line : String) : Except EdgeFault Graph :=
  match Text.words line with
  | [] => .ok g
  | [p, c] =>
    if p = c then .error (.selfLoop p)
    else if g.containsEdge p c then .error (.duplicate p c)
    else .ok (g.insertEdge p c)
  | _ => .error (.notAPair (Text.trim line))

/-- Adds the edges of lines that are numbered from `n` on. -/
def readLines (g : Graph) (n : Nat) : List String → Except EdgeListFault Graph
  | [] => .ok g
  | line :: rest =>
    match g.readLine line with
    | .ok g' => g'.readLines (n + 1) rest
    | .error fault => .error (.atLine n fault)

def ofEdgeList (text : String) : Except EdgeListFault Graph :=
  match empty.readLines 1 (Text.lines text) with
  | .ok g => if g.edges.isEmpty then .error .noEdges else .ok g
  | .error fault => .error fault

end Graph

end TreeCorpus
