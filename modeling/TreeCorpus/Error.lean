import TreeCorpus.Disk.Basic
import TreeCorpus.ExitCode
import TreeCorpus.Graph.EdgeList
import TreeCorpus.Graph.Features
import TreeCorpus.Graph.Tree

/-!
# Errors

Every failure of the library is one of these causes. `message` gives its text, `kind` the short
label it is tallied under, and `exitCode` tells failures of the input from all others. Three faults
are found by libraries that walk directories and read TOML and JSON; their own texts are not kept,
and a sentence of this library stands in the place of each.
-/

namespace TreeCorpus

instance decidableEqExcept {ε α : Type} [DecidableEq ε] [DecidableEq α] : DecidableEq (Except ε α)
  | .ok a, .ok b => decidable_of_iff (a = b) (by rw [Except.ok.injEq])
  | .error e, .error f => decidable_of_iff (e = f) (by rw [Except.error.injEq])
  | .ok _, .error _ => isFalse (by simp)
  | .error _, .ok _ => isFalse (by simp)

inductive CatalogFault where
  | rootNotADirectory
  | missingCategory (name : String)
  /-- An entry of the root leads nowhere or back to the root. -/
  | badEntry
  deriving DecidableEq, Repr

def CatalogFault.message : CatalogFault → String
  | rootNotADirectory => "catalog root is not a directory"
  | missingCategory name => s!"category directory for '{name}' is missing"
  -- stands for the text of the directory walk
  | badEntry => "the entry cannot be followed"

inductive ConfigFault where
  | pageSize
  | emptyExtension
  | dimension
  | sameExtensions
  | topK
  | measures
  | workers
  /-- A size is too large for the settings file. -/
  | sizeTooLarge
  /-- The settings file cannot be read as settings. -/
  | unreadable
  deriving DecidableEq, Repr

def ConfigFault.message : ConfigFault → String
  | pageSize => "catalog.page_size must be at least 1"
  | emptyExtension => "catalog.extension must not be empty"
  | dimension => "features.dimension must be at least 1"
  | sameExtensions => "features.sidecar_extension must differ from catalog.extension"
  | topK => "inference.top_k must be at least 1"
  | measures => "layout.width and layout.level_gap must be positive"
  | workers => "dataset.workers must be at least 1"
  | sizeTooLarge => "out-of-range value for u64 type"
  -- stands for the text of the TOML reader
  | unreadable => "the settings cannot be read"

inductive ClassifierFault where
  | noWeights
  | raggedWeights
  | biasLength (bias rows : Nat)
  | noNodes
  | rowLength (found expected : Nat)
  | scoreCount (scores categories : Nat)
  deriving DecidableEq, Repr

def ClassifierFault.message : ClassifierFault → String
  | noWeights => "weight matrix is empty"
  | raggedWeights => "weight rows have different lengths"
  | biasLength bias rows => s!"bias has {bias} entries for {rows} weight rows"
  | noNodes => "graph has no nodes"
  | rowLength found expected =>
    s!"node features have length {found}, model expects {expected}"
  | scoreCount scores categories =>
    s!"classifier returned {scores} scores for {categories} categories"

inductive Error where
  | indexOutOfRange (index total : Nat)
  | fileNotFound (path : String)
  | malformedGraph (origin : String) (fault : EdgeListFault)
  | missingFeature (node origin : String)
  | featureDimension (node origin : String) (expected found : Nat)
  | malformedFeatures (origin : String) (line : Nat) (fault : RowFault)
  | notATree (violation : TreeViolation)
  | invalidOrdinal (ordinal count : Nat)
  | invalidTopK (k length : Nat)
  /-- A score that is not finite. -/
  | invalidScore (index : Nat)
  | unknownCategory (name : String)
  | catalog (path : String) (fault : CatalogFault)
  | config (fault : ConfigFault)
  | classifier (fault : ClassifierFault)
  | disk (path : String) (fault : DiskFault)
  /-- A text that is not the JSON that was expected. -/
  | json
  deriving DecidableEq, Repr

namespace Error

def message : Error → String
  | indexOutOfRange index total =>
    s!"index {index} is out of range (dataset holds {total} samples)"
  | fileNotFound path => s!"solution file not found: {path}"
  | malformedGraph origin fault => s!"malformed graph in {origin}: {fault.message}"
  | missingFeature node origin =>
    s!"node '{node}' has no feature annotation (source: {origin})"
  | featureDimension node origin expected found =>
    s!"node '{node}' in {origin} has {found} features, expected {expected}"
  | malformedFeatures origin line fault =>
    s!"malformed feature table {origin} at line {line}: {fault.message}"
  | notATree violation => s!"graph is not a rooted tree: {violation.message}"
  | invalidOrdinal ordinal count =>
    s!"category ordinal {ordinal} is invalid for a catalog of {count} categories"
  | invalidTopK k length => s!"cannot take top {k} of {length} scores"
  | invalidScore index => s!"score at index {index} is not a finite number"
  | unknownCategory name => s!"unknown category '{name}'"
  | catalog path fault => s!"catalog error at {path}: {fault.message}"
  | config fault => s!"configuration error: {fault.message}"
  | classifier fault => s!"classifier error: {fault.message}"
  | disk path fault => s!"I/O error: {fault.message} (path: {path})"
  -- what follows the colon stands for the text of the JSON reader
  | json => "JSON error: not the expected value"

def kind : Error → String
  | indexOutOfRange .. => "index-out-of-range"
  | fileNotFound .. => "file-not-found"
  | malformedGraph .. => "malformed-graph"
  | missingFeature .. => "missing-feature"
  | featureDimension .. => "feature-dimension"
  | malformedFeatures .. => "malformed-features"
  | notATree .. => "not-a-tree"
  | invalidOrdinal .. => "invalid-ordinal"
  | invalidTopK .. => "invalid-top-k"
  | invalidScore .. => "invalid-score"
  | unknownCategory .. => "unknown-category"
  | catalog .. => "catalog"
  | config .. => "config"
  | classifier .. => "classifier"
  | disk .. => "io"
  | json => "json"

/-- Failures of the input end with the code for it, all others with the common one. -/
def exitCode : Error → ExitCode
  | indexOutOfRange .. | malformedGraph .. | missingFeature .. | featureDimension ..
  | malformedFeatures .. | notATree .. | invalidOrdinal .. | invalidTopK .. | invalidScore ..
  | unknownCategory .. => .invalidInput
  | _ => .failure

/-- A fault of the disk at a path; a file that is not there is an error of its own. -/
def ofDisk (path : String) : DiskFault → Error
  | .notFound => .fileNotFound path
  | fault => .disk path fault

def ofFeatures (origin : String) : FeatureFault → Error
  | .row line fault => .malformedFeatures origin line fault
  | .dimension node expected found => .featureDimension node origin expected found

end Error

def Disk.read (d : Disk) (path : String) : Except Error String :=
  (d.readText path).mapError (Error.ofDisk path)

def FeatureTable.parse (text : String) (dimension : Nat) (origin : String) :
    Except Error FeatureTable :=
  (FeatureTable.ofText text dimension origin).mapError (Error.ofFeatures origin)

def FeatureTable.load (d : Disk) (path : String) (dimension : Nat) : Except Error FeatureTable :=
  match d.read path with
  | .ok text => FeatureTable.parse text dimension path
  | .error e => .error e

def Graph.parse (text origin : String) : Except Error Graph :=
  (Graph.ofEdgeList text).mapError (.malformedGraph origin)

end TreeCorpus
