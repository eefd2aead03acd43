import Mathlib.Algebra.GroupWithZero.Nat
import TreeCorpus.Disk.Edit
import TreeCorpus.Proofs.Catalog.Domain
import TreeCorpus.Proofs.Catalog.Gaps
import TreeCorpus.Proofs.Disk.Below

/-!
# Solutions whose files are present

Without gaps every index below the total of a scanned catalog leads to a regular file in the
directory of its category, unless the files of that category are numbered with leading zeros; two
indexes lead to two files if the settings list no category twice (`present_of_no_gaps`).
-/

namespace TreeCorpus

open Number

/-! ## Files of solutions -/

namespace Catalog

variable {d : Disk} {c : Catalog} {sol : Solution} {loc : Location}

/-- The file of a solution is a regular file at the location, in the directory of its category. The
path of the solution leads there unless it is too long for the disk. -/
structure FileAt (d : Disk) (c : Catalog) (sol : Solution) (loc : Location) : Prop where
  path_eq : sol.path = c.solutionPath sol.category.name sol.number
  resolve_directory : d.resolve (Path.join c.root sol.category.name) = .arrived loc.dropLast
  getLast?_eq : loc.getLast? = some (fileName sol.category.name c.extension sol.number)
  lookup_eq : ∃ content, d.lookup loc = some (.file content)
  resolve_path : sol.path.utf8ByteSize < Disk.pathLimit → d.resolve sol.path = .arrived loc

theorem FileAt.isFile (h : c.FileAt d sol loc) (hsize : sol.path.utf8ByteSize < Disk.pathLimit) :
    d.isFile sol.path = true := by
  obtain ⟨content, hfile⟩ := h.lookup_eq
  exact Disk.isFile_iff.2 ⟨content, loc, h.resolve_path hsize, hfile⟩

theorem FileAt.mem_entries (h : c.FileAt d sol loc) :
    ∃ content, (fileName sol.category.name c.extension sol.number, .file content) ∈
      d.entries (Path.join c.root sol.category.name) := by
  obtain ⟨content, hfile⟩ := h.lookup_eq
  obtain ⟨dir, rfl⟩ := List.getLast?_eq_some_iff.1 h.getLast?_eq
  have hdir := h.resolve_directory
  rw [List.dropLast_concat] at hdir
  exact ⟨content, (Disk.mem_entries_iff_of_resolve hdir).2 hfile⟩

theorem exists_fileAt {category : Category} {n : Nat} {content : Content} (hd : d.Named)
    (hdir : d.isDirectory (Path.join c.root category.name) = true)
    (h : (fileName category.name c.extension n, .file content) ∈
      d.entries (Path.join c.root category.name)) :
    ∃ loc, c.FileAt d (c.solution category n) loc := by
  obtain ⟨dir, hr, hdirectory⟩ := Disk.isDirectory_iff.1 hdir
  have hlookup := (Disk.mem_entries_iff_of_resolve hr).1 h
  refine ⟨dir ++ [fileName category.name c.extension n], rfl, ?_, ?_, ⟨content, hlookup⟩, ?_⟩
  · rw [List.dropLast_concat]
    exact hr
  · exact List.getLast?_concat
  · exact Disk.resolve_join hr hdirectory (hd.isName hlookup) hlookup (by simp)

/-! ## Loaded catalogs -/

section Loaded

variable {s : CatalogSettings} {h h' : Holding} {i j o o' k k' : Nat}

theorem numbers_of_load (hc : load d s = .ok c) (hh : h ∈ c.holdings) :
    solutionNumbers d c.root c.extension h.name = .ok h.numbers ∧
      h.count = (s.perCategoryLimit.map (min h.numbers.length)).getD h.numbers.length := by
  obtain ⟨-, hroot, hext, -, hscanned⟩ := load_eq_ok_iff.1 hc
  rw [hroot, hext]
  exact ⟨(hscanned h hh).numbers_eq, (hscanned h hh).count_eq⟩

theorem count_le_of_load (hc : load d s = .ok c) (hh : h ∈ c.holdings) :
    h.count ≤ h.numbers.length := (isScanned_of_load hc hh).count_le

/-- Without gaps and leading zeros the file of an index is present. -/
theorem exists_fileAt_of_place (hc : load d s = .ok c) (hgaps : c.gaps = []) (hd : d.Named)
    (hp : ScannedIndex.Place c i o k h) (hplain : PlainlyNumbered d c.root c.extension h.name) :
    ∃ loc, c.FileAt d (c.solution ⟨h.name, o⟩ k) loc := by
  have hh := List.mem_of_getElem? hp.holding_eq
  obtain ⟨hnumbers, -⟩ := numbers_of_load hc hh
  have hle := Nat.le_trans hp.le_count (count_le_of_load hc hh)
  obtain ⟨content, hentry⟩ :=
    hplain.exists_file hnumbers (gaps_eq_nil_iff.1 hgaps h hh) hp.one_le hle
  exact exists_fileAt hd (solutionNumbers_eq_ok_iff.1 hnumbers).1 hentry

/-- A category with solutions has a name that file names can have, and so has the extension. -/
theorem slash_notMem_fileName (hc : load d s = .ok c) (hd : d.Named)
    (hp : ScannedIndex.Place c i o k h) : '/' ∉ (fileName h.name c.extension k).toList := by
  have hh := List.mem_of_getElem? hp.holding_eq
  obtain ⟨hnumbers, -⟩ := numbers_of_load hc hh
  have hne : h.numbers ≠ [] := by
    intro hnil
    have hle := count_le_of_load hc hh
    have h₁ := hp.one_le
    have h₂ := hp.le_count
    rw [hnil, List.length_nil] at hle
    omega
  obtain ⟨n, hn⟩ := List.exists_mem_of_ne_nil _ hne
  obtain ⟨name, hname⟩ := (mem_numbers_iff hnumbers).1 hn
  obtain ⟨⟨content, hentry⟩, hnumber⟩ := mem_numbered_iff.1 hname
  obtain ⟨ds, hds, -⟩ := solutionNumber?_eq_some_iff.1 hnumber
  have hslash : '/' ∉ name.toList := (hd.isName_of_mem_entries hentry).slash_notMem
  rw [hds] at hslash
  simp only [List.mem_append, List.mem_cons, not_or] at hslash
  exact slash_notMem_of_parts hslash.1 hslash.2.2.2.2

/-- Two indexes have two file names, if no category is listed twice. -/
theorem fileName_ne_of_place (hn : c.names.Nodup) (hp : ScannedIndex.Place c i o k h)
    (hp' : ScannedIndex.Place c j o' k' h') (hij : i ≠ j) :
    fileName h.name c.extension k ≠ fileName h'.name c.extension k' := by
  intro heq
  obtain ⟨hname, rfl⟩ := fileName_inj heq
  have hname₁ := getElem?_names_of_holding hp.holding_eq
  have hname₂ := getElem?_names_of_holding hp'.holding_eq
  have hlt := (List.getElem?_eq_some_iff.1 hname₁).1
  have hsame : o = o' := (List.getElem?_inj hlt hn).1 (by rw [hname₁, hname₂, hname])
  have h₁ := hp.index_eq
  have h₂ := hp'.index_eq
  rw [hsame] at h₁
  omega

theorem path_ne_of_place (hc : load d s = .ok c) (hd : d.Named)
    (hp : ScannedIndex.Place c i o k h) (hp' : ScannedIndex.Place c j o' k' h')
    (hne : fileName h.name c.extension k ≠ fileName h'.name c.extension k') :
    c.solutionPath h.name k ≠ c.solutionPath h'.name k' := by
  have hdirectory {g : Holding} (hg : g ∈ c.holdings) : Path.join c.root g.name ≠ "" := by
    obtain ⟨hnumbers, -⟩ := numbers_of_load hc hg
    obtain ⟨loc, hloc, -⟩ := Disk.isDirectory_iff.1 (solutionNumbers_eq_ok_iff.1 hnumbers).1
    exact Disk.ne_empty_of_resolve hloc
  intro heq
  rw [solutionPath_eq, solutionPath_eq] at heq
  exact hne (Disk.join_inj (hdirectory (List.mem_of_getElem? hp.holding_eq))
    (slash_notMem_fileName hc hd hp) (hdirectory (List.mem_of_getElem? hp'.holding_eq))
    (slash_notMem_fileName hc hd hp') heq)

/-- If every index has its file, no file is numbered with a leading zero. -/
theorem plainlyNumbered_of_fileAt (hc : load d s = .ok c) (hlimit : s.perCategoryLimit = none)
    (hsize : c.counts.sum < sizeLimit)
    (hfiles : ∀ i sol, (ScannedIndex.ofCatalog c).resolve i = .ok sol → ∃ loc, c.FileAt d sol loc)
    (hh : h ∈ c.holdings) : PlainlyNumbered d c.root c.extension h.name := by
  obtain ⟨hnumbers, hcount⟩ := numbers_of_load hc hh
  rw [hlimit, Option.map_none, Option.getD_none] at hcount
  obtain ⟨o, ho⟩ := List.getElem?_of_mem hh
  have hcounts := getElem?_counts_of_holding ho
  have hle : h.count ≤ c.counts.sum := by
    have hsum := sum_take_succ_getD c.counts o
    have htake := sum_take_le_sum c.counts (o + 1)
    rw [hcounts, Option.getD_some] at hsum
    omega
  apply plainlyNumbered_of_exists_file hnumbers (by omega)
  intro n hn hn'
  have hslot := slot_of_le hcounts hn (by omega)
  have hresolve := (ScannedIndex.slotLaws (x := .ofCatalog c) rfl hsize).resolve_slot
    hslot (getElem?_names_of_holding ho)
  obtain ⟨loc, hloc⟩ := hfiles _ _ hresolve
  exact hloc.mem_entries

end Loaded

end Catalog

/-- Without gaps every index below the total of scanned counts leads to a regular file in the
directory of its category if no file there is numbered with a leading zero, and two indexes lead to
two files if the settings list no category twice. With all solutions counted, the indexes have their
files only if there are no leading zeros. -/
theorem present_of_no_gaps {d : Disk} {s : CatalogSettings} {x : SampleIndex}
    (hs : s.strategy = .scanned) (hx : SampleIndex.load d s = .ok x) (hgaps : x.catalog.gaps = [])
    (hd : d.Named) :
    (∀ i < x.total, ∃ sol, x.resolve i = .ok sol ∧
      (Catalog.PlainlyNumbered d s.root s.extension sol.category.name →
        ∃ loc, x.catalog.FileAt d sol loc)) ∧
    (s.categories.Nodup → ∀ i j sol sol', x.resolve i = .ok sol → x.resolve j = .ok sol' → i ≠ j →
      sol.path ≠ sol'.path ∧ ∀ loc, x.catalog.FileAt d sol loc → ¬ x.catalog.FileAt d sol' loc) ∧
    (s.perCategoryLimit = none → x.catalog.counts.sum < sizeLimit →
      (∀ i sol, x.resolve i = .ok sol → ∃ loc, x.catalog.FileAt d sol loc) →
      ∀ name ∈ x.catalog.names, Catalog.PlainlyNumbered d s.root s.extension name) := by
  obtain ⟨c, hc, rfl⟩ := map_eq_ok_iff.1 hx
  obtain ⟨-, hroot, hext, -, -⟩ := Catalog.load_eq_ok_iff.1 hc
  unfold SampleIndex.ofCatalog at hgaps ⊢
  rw [hs] at hgaps ⊢
  rw [← hroot, ← hext]
  refine ⟨?_, ?_, ?_⟩
  · intro i hi
    obtain ⟨o, k, h, hp⟩ := ScannedIndex.exists_place hi
    exact ⟨_, hp.resolve_eq, Catalog.exists_fileAt_of_place hc hgaps hd hp⟩
  · intro hlisted i j sol sol' hsol hsol' hij
    have hn : c.names.Nodup := (Catalog.nodup_names_iff hc).2
      (Or.inr ((s.limited_sublist s.categories).nodup hlisted))
    obtain ⟨o, k, h, hp, rfl⟩ := ScannedIndex.exists_place_of_resolve hsol
    obtain ⟨o', k', h', hp', rfl⟩ := ScannedIndex.exists_place_of_resolve hsol'
    have hne := Catalog.fileName_ne_of_place hn hp hp' hij
    refine ⟨Catalog.path_ne_of_place hc hd hp hp' hne, fun loc hloc hloc' => hne ?_⟩
    exact Option.some.inj (hloc.getLast?_eq.symm.trans hloc'.getLast?_eq)
  · intro hlimit hsize hfiles name hname
    obtain ⟨h, hh, rfl⟩ := List.mem_map.1 hname
    exact Catalog.plainlyNumbered_of_fileAt hc hlimit hsize hfiles hh

/-- Two categories with a file each. -/
def twinDisk : Disk :=
  (Disk.empty.store "r/a/a-1.edges" (.text "p c\n")).store "r/b/b-1.edges" (.text "p c\n")

def twinSettings : CatalogSettings := { root := "r", categories := ["a", "b"] }

def twinIndex : SampleIndex :=
  .scanned (ScannedIndex.ofCatalog ⟨"r", "edges", [⟨"a", [1], 1⟩, ⟨"b", [1], 1⟩]⟩)

theorem plainlyNumbered_twinDisk {category : String} (h : category = "a" ∨ category = "b") :
    Catalog.PlainlyNumbered twinDisk "r" "edges" category := by
  intro name n hname
  have hfiles : Catalog.numbered twinDisk "r" "edges" category =
      [(Catalog.fileName category "edges" 1, 1)] := by
    rcases h with rfl | rfl <;> decide +kernel
  rw [hfiles, List.mem_singleton] at hname
  obtain ⟨rfl, rfl⟩ := Prod.mk.inj hname
  exact Catalog.not_leadingZero_fileName (Nat.le_refl 1)

theorem present_of_no_gaps_twins :
    SampleIndex.load twinDisk twinSettings = .ok twinIndex ∧ twinIndex.catalog.gaps = [] ∧
      twinDisk.Named ∧ twinIndex.total = 2 ∧
      (∀ i < 2, ∃ sol, twinIndex.resolve i = .ok sol ∧
        ∃ loc, twinIndex.catalog.FileAt twinDisk sol loc) ∧
      ∀ sol sol', twinIndex.resolve 0 = .ok sol → twinIndex.resolve 1 = .ok sol' →
        sol.path ≠ sol'.path := by
  have hload : SampleIndex.load twinDisk twinSettings = .ok twinIndex := by decide +kernel
  have hgaps : twinIndex.catalog.gaps = [] := rfl
  have hnamed : twinDisk.Named := by decide +kernel
  obtain ⟨hpresent, happart, -⟩ := present_of_no_gaps rfl hload hgaps hnamed
  refine ⟨hload, hgaps, hnamed, rfl, ?_, ?_⟩
  · intro i hi
    obtain ⟨sol, hsol, hfile⟩ := hpresent i hi
    refine ⟨sol, hsol, hfile (plainlyNumbered_twinDisk ?_)⟩
    obtain rfl | rfl : i = 0 ∨ i = 1 := by omega
    · exact Or.inl (congrArg (·.category.name) (Except.ok.inj hsol)).symm
    · exact Or.inr (congrArg (·.category.name) (Except.ok.inj hsol)).symm
  · intro sol sol' hsol hsol'
    exact (happart (by decide) 0 1 sol sol' hsol hsol' (by decide)).1

/-- The only file is numbered with a leading zero. -/
def zeroDisk : Disk := Disk.empty.store "r/a/a-01.edges" (.text "p c\n")

def zeroIndex : SampleIndex := .scanned (ScannedIndex.ofCatalog ⟨"r", "edges", [⟨"a", [1], 1⟩]⟩)

/-- A file that is numbered with a leading zero is counted and leaves no gap, but the path that is
made from its number is that of no file. -/
theorem leading_zero_absent :
    let s : Config := { catalog := { root := "r" } }
    let sol : Solution := ⟨⟨"a", 0⟩, 1, "r/a/a-1.edges"⟩
    s.validate = .ok s ∧ s.catalog.strategy = .scanned ∧
      SampleIndex.load zeroDisk s.catalog = .ok zeroIndex ∧ zeroIndex.catalog.gaps = [] ∧
      zeroDisk.Named ∧ zeroIndex.total = 1 ∧ zeroIndex.resolve 0 = .ok sol ∧
      zeroDisk.isFile sol.path = false ∧ ∀ loc, ¬ zeroIndex.catalog.FileAt zeroDisk sol loc := by
  intro s sol
  have habsent : zeroDisk.isFile sol.path = false := by decide +kernel
  refine ⟨by decide +kernel, rfl, by decide +kernel, rfl, by decide +kernel, rfl, by decide +kernel,
    habsent, ?_⟩
  intro loc hloc
  have hfile := hloc.isFile (by decide)
  exact absurd (habsent.symm.trans hfile) (by decide)

end TreeCorpus
