import TreeCorpus.Proofs.Catalog.Directories
import TreeCorpus.Proofs.Catalog.Gaps
import TreeCorpus.Proofs.Disk.Below

/-!
# What a catalog observes

A scan of the root lists its visible directories, links to directories among them, in the strict
order of the bytes of their names (`ListsDirectories`); the numbers of a category are those of its
regular files that are named for a number, one for each file, in ascending order (`Observed`). A
catalog that is loaded is described by this in full, and the order in which a disk lists its entries
does not matter (`load_of_sameTree`, `load_exact`).
-/

namespace TreeCorpus.Catalog

open Number

variable {d d' : Disk} {s : CatalogSettings} {c : Catalog} {h : Holding}
  {root extension category name : String} {names : List String} {n : Nat}

/-! ## Directories of the root -/

/-- The strict order of names by the bytes of their encoding. -/
def NameLt (a b : String) : Prop := a.toUTF8.toList < b.toUTF8.toList

theorem nameLt_of_nameLe {a b : String} (hle : nameLe a b = true) (hne : a ≠ b) : NameLt a b := by
  by_contra hlt
  have hge : nameLe b a = true := by
    unfold nameLe
    rw [Bool.not_eq_true', decide_eq_false_iff_not]
    exact hlt
  exact hne (nameLe_antisymm hle hge)

/-- The name is that of a directory in the root, or of a link to a directory, and not hidden. -/
def IsVisibleDirectory (d : Disk) (root name : String) : Prop :=
  isHidden name = false ∧
    ((name, .directory) ∈ d.entries root ∨
      ∃ target, (name, .link target) ∈ d.entries root ∧ d.isDirectory (Path.join root name) = true)

/-- Listed are the visible directories and the visible links to one. A link back to the root would
have stopped the scan. -/
theorem mem_categoryDirectories_iff (h : categoryDirectories d root = .ok names) :
    name ∈ names ↔ IsVisibleDirectory d root name := by
  obtain ⟨r, hr, h⟩ := exists_of_categoryDirectories h
  have hentry {i : Item} : (name, i) ∈ sortByName (d.entriesAt r) ↔ (name, i) ∈ d.entries root := by
    rw [mem_sortByName, Disk.mem_entriesAt_iff, Disk.mem_entries_iff_of_resolve hr]
  rw [mem_categoryNames_iff h]
  constructor
  · rintro ⟨i, hi, hcategory⟩
    obtain ⟨hvisible, hkind⟩ := entryIsCategory_eq_true_iff.1 hcategory
    refine ⟨hvisible, ?_⟩
    rcases hkind with rfl | ⟨⟨target, rfl⟩, loc, hloc, -, hdir⟩
    · exact Or.inl (hentry.1 hi)
    · exact Or.inr ⟨target, hentry.1 hi, Disk.isDirectory_iff.2 ⟨loc, hloc, hdir⟩⟩
  · rintro ⟨hvisible, hdir | ⟨target, hlink, hdir⟩⟩
    · exact ⟨_, hentry.2 hdir, entryIsCategory_eq_true_iff.2 ⟨hvisible, Or.inl rfl⟩⟩
    · obtain ⟨loc, hloc, hlookup⟩ := Disk.isDirectory_iff.1 hdir
      obtain ⟨keep, hkeep⟩ := ok_of_categoryNames h (hentry.2 hlink)
      rw [entryIsCategory_link hloc] at hkeep
      split at hkeep
      · exact nomatch hkeep
      · rename_i hne
        exact ⟨_, hentry.2 hlink, entryIsCategory_eq_true_iff.2
          ⟨hvisible, Or.inr ⟨⟨target, rfl⟩, loc, hloc, hne, hlookup⟩⟩⟩

/-- The names are in order, and distinct as those of entries are. -/
theorem pairwise_categoryDirectories (h : categoryDirectories d root = .ok names) :
    names.Pairwise NameLt := by
  have hnodup := nodup_categoryDirectories h
  obtain ⟨r, -, h⟩ := exists_of_categoryDirectories h
  have hsorted : ((sortByName (d.entriesAt r)).map Prod.fst).Pairwise (nameLe · · = true) :=
    List.pairwise_map.2 (pairwise_sortByName _)
  have hle := hsorted.sublist (sublist_of_categoryNames h)
  exact hle.imp₂ (fun _ _ => nameLt_of_nameLe) hnodup

/-- The names are those of the visible directories in the root, links to directories among them, in
the strict order of their bytes. -/
structure ListsDirectories (d : Disk) (root : String) (names : List String) : Prop where
  mem_iff : ∀ name, name ∈ names ↔ IsVisibleDirectory d root name
  sorted : names.Pairwise NameLt

theorem listsDirectories_of_categoryDirectories (h : categoryDirectories d root = .ok names) :
    ListsDirectories d root names :=
  ⟨fun _ => mem_categoryDirectories_iff h, pairwise_categoryDirectories h⟩

/-! ## Numbers of a category -/

/-- The entry is a regular file in the directory of the category, named for the number: the
category, a dash, decimal digits, a point and the extension. -/
structure SolutionFile (d : Disk) (root extension category name : String) (n : Nat) : Prop where
  entry : ∃ content, (name, .file content) ∈ d.entries (Path.join root category)
  name_eq : ∃ digits, digits ≠ [] ∧ (∀ c ∈ digits, c.isDigit = true) ∧ ofDigits digits = n ∧
    name = category ++ "-" ++ String.ofList digits ++ "." ++ extension
  one_le : 1 ≤ n
  lt_limit : n < sizeLimit

theorem mem_numbered_iff_solutionFile :
    (name, n) ∈ numbered d root extension category ↔
      SolutionFile d root extension category name n := by
  have hname (digits : List Char) :
      name = category ++ "-" ++ String.ofList digits ++ "." ++ extension ↔
        name.toList = category.toList ++ '-' :: (digits ++ '.' :: extension.toList) := by
    rw [← String.toList_inj]
    simp
  rw [mem_numbered_iff, solutionNumber?_eq_some_iff]
  constructor
  · rintro ⟨hentry, digits, hdigits, hn, hpos⟩
    obtain ⟨hne, hall, hvalue, hlt⟩ := sizeOfDigits?_eq_some_iff.1 hn
    exact ⟨hentry, ⟨digits, hne, hall, hvalue, (hname digits).2 hdigits⟩, hpos, hlt⟩
  · rintro ⟨hentry, ⟨digits, hne, hall, hvalue, hdigits⟩, hpos, hlt⟩
    exact ⟨hentry, digits, (hname digits).1 hdigits,
      sizeOfDigits?_eq_some_iff.2 ⟨hne, hall, hvalue, hlt⟩, hpos⟩

/-- A category has the number of each of its solution files, in ascending order, and as many count
as the settings allow. -/
structure Observed (d : Disk) (s : CatalogSettings) (h : Holding) : Prop where
  numbers_perm : ∃ files : List (String × Nat), (files.map Prod.fst).Nodup ∧
    (∀ name n, (name, n) ∈ files ↔ SolutionFile d s.root s.extension h.name name n) ∧
    h.numbers.Perm (files.map Prod.snd)
  ascending : h.numbers.Pairwise (· ≤ ·)
  count_eq : h.count = (s.perCategoryLimit.map (min h.numbers.length)).getD h.numbers.length

theorem IsScanned.observed (hs : IsScanned d s h) : Observed d s h where
  numbers_perm := by
    obtain ⟨-, hnumbers⟩ := solutionNumbers_eq_ok_iff.1 hs.numbers_eq
    refine ⟨numbered d s.root s.extension h.name, nodup_numbered .., ?_, ?_⟩
    · intro name n
      exact mem_numbered_iff_solutionFile
    · rw [hnumbers]
      exact List.mergeSort_perm _ _
  ascending := pairwise_numbers hs.numbers_eq
  count_eq := hs.count_eq

/-- The file at the path of a solution is found under its number, unless a link stands there. -/
theorem IsScanned.mem_numbers (hs : IsScanned d s h) (hname : '/' ∉ h.name.toList)
    (hextension : '/' ∉ s.extension.toList) (hpos : 1 ≤ n) (hn : n < sizeLimit)
    (hfile : d.isFile (Path.join (Path.join s.root h.name) (fileName h.name s.extension n)) = true)
    (hlink : ∀ target, (fileName h.name s.extension n, .link target) ∉
      d.entries (Path.join s.root h.name)) :
    n ∈ h.numbers := by
  obtain ⟨hdir, -⟩ := solutionNumbers_eq_ok_iff.1 hs.numbers_eq
  obtain ⟨loc, hloc, -⟩ := Disk.isDirectory_iff.1 hdir
  obtain ⟨content, end', hend, hcontent⟩ := Disk.isFile_iff.1 hfile
  have hplace : end' = loc ++ [fileName h.name s.extension n] := by
    apply Disk.eq_of_resolve_join hloc (slash_notMem_of_parts hname hextension) _ _ _ _ hend
    · exact fileName_ne (by decide)
    · exact fileName_ne (by decide)
    · exact fileName_ne (by decide)
    · exact fun target hi => hlink target ((Disk.mem_entries_iff_of_resolve hloc).2 hi)
  rw [mem_numbers_iff hs.numbers_eq]
  refine ⟨_, mem_numbered_iff.2 ⟨⟨content, ?_⟩, solutionNumber?_fileName hpos hn⟩⟩
  rw [Disk.mem_entries_iff_of_resolve hloc, ← hplace]
  exact hcontent

/-! ## The order of entries -/

theorem categoryDirectories_of_sameTree (h : d.SameTree d') :
    categoryDirectories d' root = categoryDirectories d root := by
  cases hr : d.resolve root with
  | arrived r =>
    have hsorted : sortByName (d'.entriesAt r) = sortByName (d.entriesAt r) := by
      apply sortByName_congr (Disk.nodup_entriesAt d' r) (Disk.nodup_entriesAt d r)
      rintro ⟨name, i⟩
      rw [Disk.mem_entriesAt_iff, Disk.mem_entriesAt_iff, h.lookup_eq]
    rw [categoryDirectories_of_resolve hr,
      categoryDirectories_of_resolve ((h.resolve_eq root).trans hr), hsorted]
    apply categoryNames_congr
    intro e _
    unfold entryIsCategory
    simp only [h.resolve_eq, h.lookup_eq]
  | _ =>
    unfold categoryDirectories
    rw [h.resolve_eq, hr]

/-- Disks that hold the same items give the same catalog or the same error, in whatever order they
list them. -/
theorem load_of_sameTree (h : d.SameTree d') : load d' s = load d s := by
  have hroot : d'.isDirectory s.root = d.isDirectory s.root :=
    Disk.isDirectory_congr (h.resolve_eq s.root) fun loc _ => h.lookup_eq loc
  have hlisting : listing d' s = listing d s := by
    unfold listing
    rw [categoryDirectories_of_sameTree h]
  have hscan (names : List String) : scanHoldings d' s names = scanHoldings d s names :=
    scanHoldings_congr fun name _ => solutionNumbers_congr (h.sameDirectory _)
  unfold load
  simp only [hroot, hlisting, hscan]

/-- A loaded catalog has the categories that the settings list, in their order, or else the visible
directories of the root in the order of the bytes of their names, both up to the limit; each has the
numbers of its solution files, and counts them up to its limit. The order in which the disk lists
its entries does not matter, and a regular file at the path of a solution is found under its
number. -/
theorem load_exact (hc : load d s = .ok c) :
    c.root = s.root ∧ c.extension = s.extension ∧
    (∃ listed, c.names = s.limited listed ∧ (s.categories ≠ [] → listed = s.categories) ∧
      (s.categories = [] → ListsDirectories d s.root listed)) ∧
    (∀ h ∈ c.holdings, Observed d s h) ∧
    (∀ d', d.SameTree d' → load d' s = .ok c) ∧
    ∀ h ∈ c.holdings, '/' ∉ h.name.toList → '/' ∉ s.extension.toList →
      ∀ n, 1 ≤ n → n < sizeLimit → d.isFile (c.solutionPath h.name n) = true →
        (∀ target, (fileName h.name s.extension n, .link target) ∉
          d.entries (Path.join s.root h.name)) →
        n ∈ h.numbers := by
  obtain ⟨-, hroot, hext, ⟨listed, hlisting, hnames⟩, hscanned⟩ := load_eq_ok_iff.1 hc
  refine ⟨hroot, hext, ⟨listed, hnames, ?_, ?_⟩, ?_, ?_, ?_⟩
  · intro hs
    rw [listing_of_ne_nil hs] at hlisting
    exact (Except.ok.inj hlisting).symm
  · intro hs
    rw [listing_of_eq_nil hs] at hlisting
    exact listsDirectories_of_categoryDirectories hlisting
  · exact fun h hh => (hscanned h hh).observed
  · exact fun d' hsame => (load_of_sameTree hsame).trans hc
  · intro h hh hname hextension n hpos hn hfile hlink
    rw [solutionPath_eq, hroot, hext] at hfile
    exact (hscanned h hh).mem_numbers hname hextension hpos hn hfile hlink

/-- A directory with three files, of which two are named for one number, a link to it, a hidden
directory and one beyond the limit of the settings. -/
def linkedDisk : Disk where
  items :=
    [(["work", "r", ".git"], .directory), (["work", "r", "a"], .link "b"),
      (["work", "r", "b"], .directory), (["work", "r", "c"], .directory), (["work", "r"], .directory),
      (["work", "r", "b", "b-1.edges"], .file (.text "p c\n")),
      (["work", "r", "b", "b-01.edges"], .file (.text "p c\n")),
      (["work", "r", "b", "a-01.edges"], .file (.text "p c\n"))]
  workDir := ["work"]

def linkedSettings : CatalogSettings :=
  { root := "r", categoryLimit := some 2, perCategoryLimit := some 1 }

def linkedCatalog : Catalog := ⟨"r", "edges", [⟨"a", [1], 1⟩, ⟨"b", [1, 1], 1⟩]⟩

theorem load_linkedDisk : load linkedDisk linkedSettings = .ok linkedCatalog := by
  have hr : linkedDisk.resolve "r" = .arrived ["work", "r"] := by decide +kernel
  have hsorted : sortByName (linkedDisk.entriesAt ["work", "r"]) =
      linkedDisk.entriesAt ["work", "r"] := by
    apply List.mergeSort_of_pairwise
    decide +kernel
  have hlisting : listing linkedDisk linkedSettings = .ok ["a", "b", "c"] := by
    rw [listing_of_eq_nil rfl, show linkedSettings.root = "r" from rfl,
      categoryDirectories_of_resolve hr, hsorted]
    decide +kernel
  have hnumbers {category : String} {ns : List Nat}
      (hdir : linkedDisk.isDirectory (Path.join "r" category) = true)
      (hns : (numbered linkedDisk "r" "edges" category).map Prod.snd = ns)
      (hsorted : ns.Pairwise fun a b => decide (a ≤ b) = true) :
      solutionNumbers linkedDisk "r" "edges" category = .ok ns := by
    rw [solutionNumbers_of_isDirectory hdir, hns, List.mergeSort_of_pairwise hsorted]
  refine load_eq_ok_iff.2 ⟨by decide +kernel, rfl, rfl, ⟨_, hlisting, rfl⟩, fun h hh => ?_⟩
  rcases List.mem_cons.1 hh with rfl | hh
  · exact ⟨hnumbers (by decide +kernel) (by decide +kernel) (by decide), rfl⟩
  · obtain rfl := List.mem_singleton.1 hh
    exact ⟨hnumbers (by decide +kernel) (by decide +kernel) (by decide), rfl⟩

theorem load_exact_linked :
    let h : Holding := ⟨"b", [1, 1], 1⟩
    load linkedDisk linkedSettings = .ok linkedCatalog ∧
      (∃ listed, linkedCatalog.names = listed.take 2 ∧ ListsDirectories linkedDisk "r" listed) ∧
      (∀ h ∈ linkedCatalog.holdings, Observed linkedDisk linkedSettings h) ∧
      load ⟨linkedDisk.items.reverse, linkedDisk.workDir⟩ linkedSettings = .ok linkedCatalog ∧
      h ∈ linkedCatalog.holdings ∧ linkedDisk.isFile (linkedCatalog.solutionPath h.name 1) = true ∧
      1 ∈ h.numbers := by
  intro h
  have hmem : h ∈ linkedCatalog.holdings := List.mem_cons_of_mem _ List.mem_cons_self
  have hfile : linkedDisk.isFile (linkedCatalog.solutionPath h.name 1) = true := by decide +kernel
  have hlink : ∀ target, (fileName h.name "edges" 1, .link target) ∉
      linkedDisk.entries (Path.join "r" h.name) := by
    intro target hi
    have hr : linkedDisk.resolve (Path.join "r" h.name) = .arrived ["work", "r", "b"] := by
      decide +kernel
    have hlookup : linkedDisk.lookup (["work", "r", "b"] ++ [fileName h.name "edges" 1]) =
        some (.file (.text "p c\n")) := by decide +kernel
    rw [Disk.mem_entries_iff_of_resolve hr, hlookup] at hi
    exact nomatch hi
  have hreverse : linkedDisk.SameTree ⟨linkedDisk.items.reverse, linkedDisk.workDir⟩ :=
    Disk.sameTree_of_perm (by decide +kernel) (List.reverse_perm _)
  obtain ⟨-, -, ⟨listed, hnames, -, hlists⟩, hobserved, horder, hfound⟩ :=
    load_exact load_linkedDisk
  have hnumber := hfound h hmem (by decide) (by decide) 1 (by decide) (by decide) hfile hlink
  exact ⟨load_linkedDisk, ⟨listed, hnames, hlists rfl⟩, hobserved, horder _ hreverse, hmem, hfile,
    hnumber⟩

end TreeCorpus.Catalog
