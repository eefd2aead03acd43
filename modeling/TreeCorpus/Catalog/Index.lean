import TreeCorpus.Catalog.Scan

/-!
# Sample indexes

An index numbers the solutions of a catalog through all categories, in order. With fixed pages
every category takes as many indexes as a page holds; with scanned counts it takes as many as it
has solutions. All arithmetic is on sizes: `total`, `resolve` and `locate` wrap at `2 ^ 64`, and
`total?`, `resolve?` and `locate?` have no outcome where the program stops at an overflow.
-/

namespace TreeCorpus

open Number

/-- Every category holds one page of solutions. -/
structure FixedPageIndex where
  catalog : Catalog
  pageSize : Nat
  deriving DecidableEq, Repr

namespace FixedPageIndex

/-- Pages of the given size; an empty page counts as one solution. -/
def ofCatalog (c : Catalog) (pageSize : Nat) : FixedPageIndex := ⟨c, max pageSize 1⟩

def total (x : FixedPageIndex) : Nat := wrap (x.catalog.size * x.pageSize)

/-- The largest number that the total takes, and resolving with it. -/
def totalPeak (x : FixedPageIndex) : Nat := x.catalog.size * x.pageSize

def resolve (x : FixedPageIndex) (index : Nat) : Except Error Solution :=
  match x.catalog.category? (index / x.pageSize) with
  | some c =>
    if index < x.total then .ok (x.catalog.solution c (index % x.pageSize + 1))
    else .error (.indexOutOfRange index x.total)
  | none => .error (.indexOutOfRange index x.total)

def locate (x : FixedPageIndex) (name : String) (number : Nat) : Except Error Nat :=
  match x.catalog.find? name with
  | none => .error (.unknownCategory name)
  | some c =>
    if number = 0 ∨ x.pageSize < number then .error (.indexOutOfRange number x.pageSize)
    else .ok (wrap (c.ordinal * x.pageSize + (number - 1)))

/-- The largest number that locating takes: the number is added before one is taken off. -/
def locatePeak (x : FixedPageIndex) (name : String) (number : Nat) : Nat :=
  match x.catalog.find? name with
  | none => 0
  | some c => if number = 0 ∨ x.pageSize < number then 0 else c.ordinal * x.pageSize + number

end FixedPageIndex

/-- The sums of the counts before each position, and of all of them at the end. -/
def offsetsFrom (start : Nat) : List Nat → List Nat
  | [] => [start]
  | n :: ns => start :: offsetsFrom (wrap (start + n)) ns

/-- Every category holds the solutions that were counted for it. -/
structure ScannedIndex where
  catalog : Catalog
  /-- The first index of each category, and the total at the end. -/
  offsets : List Nat
  deriving DecidableEq, Repr

namespace ScannedIndex

def ofCatalog (c : Catalog) : ScannedIndex := ⟨c, offsetsFrom 0 c.counts⟩

def total (x : ScannedIndex) : Nat := x.offsets.getLast?.getD 0

/-- The solution of an index: the last category that starts at or before it. -/
def resolve (x : ScannedIndex) (index : Nat) : Except Error Solution :=
  if x.total ≤ index then .error (.indexOutOfRange index x.total)
  else
    let ordinal := (x.offsets.takeWhile (· ≤ index)).length - 1
    match x.catalog.category? ordinal with
    | none => .error (.indexOutOfRange index x.total)
    | some c => .ok (x.catalog.solution c (index - x.offsets[ordinal]?.getD 0 + 1))

def locate (x : ScannedIndex) (name : String) (number : Nat) : Except Error Nat :=
  match x.catalog.find? name with
  | none => .error (.unknownCategory name)
  | some c =>
    let count := x.catalog.counts[c.ordinal]?.getD 0
    if number = 0 ∨ count < number then .error (.indexOutOfRange number count)
    else .ok (wrap (x.offsets[c.ordinal]?.getD 0 + (number - 1)))

def locatePeak (x : ScannedIndex) (name : String) (number : Nat) : Nat :=
  match x.catalog.find? name with
  | none => 0
  | some c =>
    if number = 0 ∨ x.catalog.counts[c.ordinal]?.getD 0 < number then 0
    else x.offsets[c.ordinal]?.getD 0 + number

end ScannedIndex

inductive SampleIndex where
  | fixedPage (x : FixedPageIndex)
  | scanned (x : ScannedIndex)
  deriving DecidableEq, Repr

namespace SampleIndex

def ofCatalog (c : Catalog) (s : CatalogSettings) : SampleIndex :=
  match s.strategy with
  | .fixedPage => fixedPage (FixedPageIndex.ofCatalog c s.pageSize)
  | .scanned => scanned (ScannedIndex.ofCatalog c)

def load (d : Disk) (s : CatalogSettings) : Except Error SampleIndex :=
  (Catalog.load d s).map (ofCatalog · s)

def catalog : SampleIndex → Catalog
  | fixedPage x => x.catalog
  | scanned x => x.catalog

def total : SampleIndex → Nat
  | fixedPage x => x.total
  | scanned x => x.total

def resolve : SampleIndex → Nat → Except Error Solution
  | fixedPage x => x.resolve
  | scanned x => x.resolve

def locate : SampleIndex → String → Nat → Except Error Nat
  | fixedPage x => x.locate
  | scanned x => x.locate

/-! ### Overflows -/

/-- The largest number that setting up the index takes: scanned counts are added up once. -/
def setupPeak : SampleIndex → Nat
  | fixedPage _ => 0
  | scanned x => x.catalog.counts.foldr (· + ·) 0

def totalPeak : SampleIndex → Nat
  | fixedPage x => x.totalPeak
  | scanned _ => 0

def locatePeak : SampleIndex → String → Nat → Nat
  | fixedPage x => x.locatePeak
  | scanned x => x.locatePeak

variable (o : Overflow)

def ofCatalog? (c : Catalog) (s : CatalogSettings) : Option SampleIndex :=
  o.checked (ofCatalog c s).setupPeak (ofCatalog c s)

def load? (d : Disk) (s : CatalogSettings) : Option (Except Error SampleIndex) :=
  match Catalog.load d s with
  | .error e => some (.error e)
  | .ok c => (ofCatalog? o c s).map .ok

theorem load?_eq_some {d : Disk} {s : CatalogSettings} {x : SampleIndex} (hx : load d s = .ok x)
    (h : x.setupPeak < sizeLimit) : load? o d s = some (.ok x) := by
  unfold load at hx
  unfold load?
  cases hc : Catalog.load d s with
  | error e =>
    rw [hc] at hx
    exact absurd hx (by simp [Except.map])
  | ok c =>
    rw [hc] at hx
    obtain rfl : ofCatalog c s = x := Except.ok.inj hx
    exact congrArg (Option.map Except.ok) (Overflow.checked_of_lt h)

def total? (x : SampleIndex) : Option Nat := o.checked x.totalPeak x.total

def resolve? (x : SampleIndex) (index : Nat) : Option (Except Error Solution) :=
  o.checked x.totalPeak (x.resolve index)

def locate? (x : SampleIndex) (name : String) (number : Nat) : Option (Except Error Nat) :=
  o.checked (x.locatePeak name number) (x.locate name number)

end SampleIndex

end TreeCorpus
