import TreeCorpus.Error
import TreeCorpus.Graph.Layout
import TreeCorpus.Number.Decimal

/-!
# Settings

The settings of a run, their defaults, and the first of them that is out of range.
-/

namespace TreeCorpus

open Number

inductive IndexStrategy where
  /-- Every category counts as one page of solutions. -/
  | fixedPage
  /-- Every category counts as the solutions found for it. -/
  | scanned
  deriving DecidableEq, Repr

structure CatalogSettings where
  root : String := "data/raw"
  strategy : IndexStrategy := .scanned
  pageSize : Nat := 500
  extension : String := "edges"
  /-- The categories in order; with none the directories below the root are taken. -/
  categories : List String := []
  categoryLimit : Option Nat := none
  perCategoryLimit : Option Nat := none
  deriving DecidableEq

structure FeatureSettings where
  dimension : Nat := 139
  sidecarExtension : String := "features"
  /-- One table for all solutions in place of the tables beside them. -/
  table : Option String := none
  deriving DecidableEq

def defaultMeasures : LayoutMeasures Double :=
  ⟨Literal.roundDecimal false 10 0, Literal.roundDecimal false 2 (-1)⟩

structure InferenceSettings where
  topK : Nat := 3
  model : Option String := none
  deriving DecidableEq

structure DatasetSettings where
  workers : Option Nat := none
  deriving DecidableEq

structure Config where
  catalog : CatalogSettings := {}
  features : FeatureSettings := {}
  layout : LayoutMeasures Double := defaultMeasures
  inference : InferenceSettings := {}
  dataset : DatasetSettings := {}
  deriving DecidableEq

namespace Config

def default : Config := {}

/-- A finite number above zero. -/
def isPositive (x : Double) : Bool := x.isFinite && 0 < x.key

/-- The first setting that is out of range. -/
def fault? (c : Config) : Option ConfigFault :=
  if c.catalog.pageSize = 0 then some .pageSize
  else if c.catalog.extension = "" then some .emptyExtension
  else if c.features.dimension = 0 then some .dimension
  else if c.features.sidecarExtension = c.catalog.extension then some .sameExtensions
  else if c.inference.topK = 0 then some .topK
  else if !isPositive c.layout.width || !isPositive c.layout.levelGap then some .measures
  else if c.dataset.workers = some 0 then some .workers
  else none

def validate (c : Config) : Except Error Config :=
  match c.fault? with
  | some fault => .error (.config fault)
  | none => .ok c

theorem validate_eq_ok_iff {c c' : Config} : c.validate = .ok c' ↔ c.fault? = none ∧ c' = c := by
  unfold validate
  cases h : c.fault? with
  | none => exact ⟨fun e => ⟨rfl, (Except.ok.inj e).symm⟩, fun e => by rw [e.2]⟩
  | some fault => exact ⟨fun e => absurd e (by simp), fun e => absurd e.1 (by simp)⟩

theorem fault?_default : default.fault? = none := by decide +kernel

end Config

end TreeCorpus
