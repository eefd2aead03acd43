import TreeCorpus.Settings.Basic
import TreeCorpus.Toml.Decode
import TreeCorpus.Toml.Reader
import TreeCorpus.Toml.Writer

/-!
# The settings file

The settings as a TOML document with one section a group. A setting that is not in the document has
its default; one that has no value is not written.
-/

namespace TreeCorpus

open Number Toml

def settingsFile : String := "solgraph.toml"

namespace IndexStrategy

def name : IndexStrategy → String
  | fixedPage => "fixed-page"
  | scanned => "scanned"

def ofName? (s : String) : Option IndexStrategy :=
  if s = fixedPage.name then some fixedPage
  else if s = scanned.name then some scanned
  else none

theorem ofName?_name (s : IndexStrategy) : ofName? s.name = some s := by
  cases s <;> decide

end IndexStrategy

/-! ## Reading -/

namespace CatalogSettings

def ofValue? (v : Value) : Option CatalogSettings := do
  let s : CatalogSettings := {}
  match ← v.fields? ["root", "strategy", "page_size", "extension", "categories", "category_limit",
      "per_category_limit"] with
  | [root, strategy, pageSize, extension, categories, categoryLimit, perCategoryLimit] =>
    return {
      root := ← Value.orElse Value.text? s.root root
      strategy := ← Value.orElse (fun v => v.alternative?.bind IndexStrategy.ofName?) s.strategy
        strategy
      pageSize := ← Value.orElse Value.size? s.pageSize pageSize
      extension := ← Value.orElse Value.text? s.extension extension
      categories := ← Value.orElse (Value.list? Value.text?) s.categories categories
      categoryLimit := ← Value.optional Value.size? categoryLimit
      perCategoryLimit := ← Value.optional Value.size? perCategoryLimit }
  | _ => none

def entries (s : CatalogSettings) : Entries :=
  [("root", .string s.root), ("strategy", .string s.strategy.name),
    ("page_size", .integer s.pageSize), ("extension", .string s.extension),
    ("categories", .array (s.categories.map .string))] ++
  (s.categoryLimit.map fun (n : Nat) => ("category_limit", Value.integer n)).toList ++
  (s.perCategoryLimit.map fun (n : Nat) => ("per_category_limit", Value.integer n)).toList

end CatalogSettings

namespace FeatureSettings

def ofValue? (v : Value) : Option FeatureSettings := do
  let s : FeatureSettings := {}
  match ← v.fields? ["dimension", "sidecar_extension", "table"] with
  | [dimension, sidecarExtension, table] =>
    return {
      dimension := ← Value.orElse Value.size? s.dimension dimension
      sidecarExtension := ← Value.orElse Value.text? s.sidecarExtension sidecarExtension
      table := ← Value.optional Value.text? table }
  | _ => none

def entries (s : FeatureSettings) : Entries :=
  [("dimension", .integer s.dimension), ("sidecar_extension", .string s.sidecarExtension)] ++
  (s.table.map fun path => ("table", Value.string path)).toList

end FeatureSettings

def measuresOfValue? (v : Value) : Option (LayoutMeasures Double) := do
  match ← v.fields? ["width", "level_gap"] with
  | [width, levelGap] =>
    return {
      width := ← Value.orElse Value.double? defaultMeasures.width width
      levelGap := ← Value.orElse Value.double? defaultMeasures.levelGap levelGap }
  | _ => none

def measureEntries (m : LayoutMeasures Double) : Entries :=
  [("width", .float m.width), ("level_gap", .float m.levelGap)]

namespace InferenceSettings

def ofValue? (v : Value) : Option InferenceSettings := do
  let s : InferenceSettings := {}
  match ← v.fields? ["top_k", "model"] with
  | [topK, model] =>
    return {
      topK := ← Value.orElse Value.size? s.topK topK
      model := ← Value.optional Value.text? model }
  | _ => none

def entries (s : InferenceSettings) : Entries :=
  [("top_k", .integer s.topK)] ++ (s.model.map fun path => ("model", Value.string path)).toList

end InferenceSettings

namespace DatasetSettings

def ofValue? (v : Value) : Option DatasetSettings := do
  match ← v.fields? ["workers"] with
  | [workers] => return { workers := ← Value.optional Value.size? workers }
  | _ => none

def entries (s : DatasetSettings) : Entries :=
  (s.workers.map fun (n : Nat) => ("workers", Value.integer n)).toList

end DatasetSettings

namespace Config

def ofEntries? (es : Entries) : Option Config := do
  return {
    catalog := ← Value.orElse CatalogSettings.ofValue? {} (es.lookup "catalog")
    features := ← Value.orElse FeatureSettings.ofValue? {} (es.lookup "features")
    layout := ← Value.orElse measuresOfValue? defaultMeasures (es.lookup "layout")
    inference := ← Value.orElse InferenceSettings.ofValue? {} (es.lookup "inference")
    dataset := ← Value.orElse DatasetSettings.ofValue? {} (es.lookup "dataset") }

/-- Reads settings that are all in range. -/
def parse (text : String) : Except Error Config :=
  match (entriesOfText? text).bind ofEntries? with
  | none => .error (.config .unreadable)
  | some c => c.validate

def loadFile (d : Disk) (path : String) : Except Error Config :=
  match d.read path with
  | .ok text => parse text
  | .error e => .error e

/-- Reads the settings of the working directory, which are the defaults without a settings file. -/
def load (d : Disk) : Except Error Config :=
  if d.pathExists settingsFile then loadFile d settingsFile else default.validate

/-! ## Writing -/

def sections (c : Config) : List (String × Entries) :=
  [("catalog", c.catalog.entries), ("features", c.features.entries),
    ("layout", measureEntries c.layout), ("inference", c.inference.entries),
    ("dataset", c.dataset.entries)]

/-- The text of the settings file. Sizes that do not fit an integer of the format have none. -/
def text (c : Config) : Except Error String :=
  match documentText? c.sections with
  | some s => .ok s
  | none => .error (.config .sizeTooLarge)

/-- Writes the settings to a file; nothing is written unless all of them can be. -/
def save (d : Disk) (path : String) (c : Config) : Except Error Disk :=
  match c.text with
  | .error e => .error e
  | .ok s => (d.writeText path s).mapError (Error.ofDisk path)

end Config

end TreeCorpus
