import TreeCorpus.Error

/-!
# Catalogs

A catalog lists categories in a fixed order and, for each, the solution numbers that were found
and how many solutions count. The solution `n` of the category `c` is the file
`root/c/c-n.extension`. A gap is a number that is missing below the highest one found.
-/

namespace TreeCorpus

structure Category where
  name : String
  ordinal : Nat
  deriving DecidableEq, Repr

/-- One solution: its category, its number, which counts from one, and its file. -/
structure Solution where
  category : Category
  number : Nat
  path : String
  deriving DecidableEq, Repr

structure Holding where
  name : String
  /-- The numbers found, in ascending order. -/
  numbers : List Nat
  /-- How many solutions count. -/
  count : Nat
  deriving DecidableEq, Repr

structure Gap where
  category : String
  missing : List Nat
  deriving DecidableEq, Repr

/-- The categories below a root, in order. -/
structure Catalog where
  root : String
  extension : String
  holdings : List Holding
  deriving DecidableEq, Repr

/-- The numbers from `next` on that are missing below the last number of an ascending list. -/
def missingFrom (next : Nat) : List Nat → List Nat
  | [] => []
  | n :: ns => List.range' next (n - next) ++ missingFrom (max next (n + 1)) ns

/-- The numbers from one on that are missing below the last number of an ascending list. -/
def missingNumbers (ns : List Nat) : List Nat := missingFrom 1 ns

namespace Catalog

/-- A catalog in which each category has the solutions from one to its count. -/
def ofCounts (root extension : String) (counts : List (String × Nat)) : Catalog :=
  ⟨root, extension, counts.map fun e => ⟨e.1, List.range' 1 e.2, e.2⟩⟩

def size (c : Catalog) : Nat := c.holdings.length

def names (c : Catalog) : List String := c.holdings.map Holding.name

def counts (c : Catalog) : List Nat := c.holdings.map Holding.count

@[simp] theorem length_names (c : Catalog) : c.names.length = c.size := List.length_map ..

@[simp] theorem length_counts (c : Catalog) : c.counts.length = c.size := List.length_map ..

def categories (c : Catalog) : List Category := c.names.zipIdx.map fun e => ⟨e.1, e.2⟩

def category? (c : Catalog) (ordinal : Nat) : Option Category :=
  (c.holdings[ordinal]?).map fun h => ⟨h.name, ordinal⟩

/-- The first category of a name. -/
def find? (c : Catalog) (name : String) : Option Category :=
  (c.names.findIdx? (· == name)).map (⟨name, ·⟩)

@[simp] theorem length_categories (c : Catalog) : c.categories.length = c.size := by
  rw [categories, List.length_map, List.length_zipIdx, length_names]

/-- There is a category at exactly the positions below the size. -/
theorem category?_isSome (c : Catalog) (ordinal : Nat) :
    (c.category? ordinal).isSome ↔ ordinal < c.size := by
  rw [category?, Option.isSome_map, size, Option.isSome_iff_exists]
  exact ⟨fun ⟨_, h⟩ => (List.getElem?_eq_some_iff.1 h).1, fun h => ⟨_, List.getElem?_eq_getElem h⟩⟩

def solutionPath (c : Catalog) (category : String) (number : Nat) : String :=
  Path.join (Path.join c.root category) s!"{category}-{number}.{c.extension}"

def solution (c : Catalog) (category : Category) (number : Nat) : Solution :=
  ⟨category, number, c.solutionPath category.name number⟩

def gaps (c : Catalog) : List Gap :=
  c.holdings.filterMap fun h => match missingNumbers h.numbers with
    | [] => none
    | missing => some ⟨h.name, missing⟩

end Catalog

end TreeCorpus
