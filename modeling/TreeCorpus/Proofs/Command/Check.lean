import TreeCorpus.Proofs.Catalog.Observed
import TreeCorpus.Proofs.Command.Refusal

/-!
# Checking the numbers of a catalog

The numbers of a category, scanned or counted, start from one and ascend, so each category with a
missing number has one gap (`numbering_checked`). The check of a catalog ends with success exactly
if in every category the found numbers are those from one up to some number. How many solutions
count does not matter to it (`execute_check_recounted`).
-/

namespace TreeCorpus

open Command

namespace Catalog

variable {d : Disk} {s : CatalogSettings} {c : Catalog}

/-! ## Numbers from one -/

theorem numbered_of_load (hc : load d s = .ok c) {h : Holding} (hh : h ∈ c.holdings) :
    Numbered h := by
  have hnumbers := (isScanned_of_load hc hh).numbers_eq
  exact ⟨pairwise_numbers hnumbers, fun _ => one_le_of_mem_numbers hnumbers⟩

theorem numbered_ofCounts {root extension : String} {counts : List (String × Nat)} {h : Holding}
    (hh : h ∈ (ofCounts root extension counts).holdings) : Numbered h := by
  obtain ⟨e, -, rfl⟩ := List.mem_map.1 hh
  exact ⟨List.pairwise_le_range' .., fun n hn => (List.mem_range'_1.1 hn).1⟩

/-- The found numbers of a category are those of its solution files. -/
theorem mem_numbers_iff_solutionFile (hc : load d s = .ok c) {h : Holding} (hh : h ∈ c.holdings)
    {n : Nat} :
    n ∈ h.numbers ↔ ∃ name, SolutionFile d s.root s.extension h.name name n := by
  rw [mem_numbers_iff (isScanned_of_load hc hh).numbers_eq]
  exact exists_congr fun _ => mem_numbered_iff_solutionFile

/-- The found numbers are those from one up to some number. -/
def Contiguous (h : Holding) : Prop := ∃ m, ∀ n, n ∈ h.numbers ↔ 1 ≤ n ∧ n ≤ m

theorem gaps_eq_nil_iff_contiguous (hc : ∀ h ∈ c.holdings, Numbered h) :
    c.gaps = [] ↔ ∀ h ∈ c.holdings, Contiguous h := by
  rw [gaps_eq_nil_iff]
  exact forall₂_congr fun h hh =>
    missingNumbers_eq_nil_iff_range (hc h hh).ascending (hc h hh).one_le

/-! ## Other counts -/

/-- The catalog with other limits on how many solutions of a category count. -/
def recounted (c : Catalog) (limit : Option Nat) : Catalog :=
  { c with holdings := c.holdings.map fun h =>
      { h with count := (limit.map (min h.numbers.length)).getD h.numbers.length } }

theorem names_recounted (c : Catalog) (limit : Option Nat) :
    (c.recounted limit).names = c.names := List.map_map

theorem gaps_recounted (c : Catalog) (limit : Option Nat) : (c.recounted limit).gaps = c.gaps :=
  List.filterMap_map

/-- The limit decides the counts and nothing else. -/
theorem load_recounted (hc : load d s = .ok c) (limit : Option Nat) :
    load d { s with perCategoryLimit := limit } = .ok (c.recounted limit) := by
  obtain ⟨hdir, hroot, hext, ⟨listed, hlisted, hnames⟩, hscanned⟩ := load_eq_ok_iff.1 hc
  refine load_eq_ok_iff.2 ⟨hdir, hroot, hext, ⟨listed, hlisted, ?_⟩, fun h hh => ?_⟩
  · rw [names_recounted, hnames]
    rfl
  · obtain ⟨h', hh', rfl⟩ := List.mem_map.1 hh
    exact ⟨(hscanned h' hh').numbers_eq, rfl⟩

end Catalog

open Catalog

/-! ## The check -/

section Check

variable {d : Disk} {s : Config} {c : Catalog} (hload : Catalog.load d s.catalog = .ok c)
  (colors : Bool)

include hload

theorem execute_check :
    execute colors d s .check =
      ⟨Console.gapLines colors c.gaps, d,
        .ok (if c.gaps.isEmpty then .success else .invalidInput)⟩ := by
  show runCheck colors d s = _
  unfold runCheck
  rw [hload]

theorem execute_check_recounted (limit : Option Nat) :
    execute colors d { s with catalog := { s.catalog with perCategoryLimit := limit } } .check =
      execute colors d s .check := by
  rw [execute_check (load_recounted hload limit), execute_check hload, gaps_recounted]

end Check

/-- A catalog that was loaded or made from counts has one gap for each category with a missing
number, in order. The check of a loaded one ends with 0 if in every category the found numbers are
those from one up to some number, and else with 2, whatever limits the counts. -/
theorem numbering_checked {c : Catalog}
    (hc : (∃ d s, Catalog.load d s = .ok c) ∨
      ∃ root extension counts, c = Catalog.ofCounts root extension counts) :
    List.Forall₂ IsGap (c.holdings.filter (HasMissing ·)) c.gaps ∧
      ∀ (d : Disk) (i : Invocation) (s : Config), i.command = .check → i.settings d = .ok s →
        Catalog.load d s.catalog = .ok c → ∀ colors,
        (∀ h ∈ c.holdings, ∀ n, n ∈ h.numbers ↔
          ∃ name, SolutionFile d s.catalog.root s.catalog.extension h.name name n) ∧
        (∃ code, (i.run colors d).result = .ok code ∧
          (code.number = 0 ↔ ∀ h ∈ c.holdings, Contiguous h) ∧
          (code.number = 2 ↔ ¬ ∀ h ∈ c.holdings, Contiguous h)) ∧
        ∀ limit, execute colors d
          { s with catalog := { s.catalog with perCategoryLimit := limit } } .check =
            i.run colors d := by
  have hnumbered : ∀ h ∈ c.holdings, Numbered h := by
    rcases hc with ⟨d, s, hc⟩ | ⟨root, extension, counts, rfl⟩
    · exact fun h hh => numbered_of_load hc hh
    · exact fun h hh => numbered_ofCounts hh
  refine ⟨forall₂_gaps hnumbered, ?_⟩
  intro d i s hcommand hsettings hload colors
  have hrun : i.run colors d = execute colors d s .check := by
    rw [run_of_settings hsettings, hcommand]
  refine ⟨fun h hh n => mem_numbers_iff_solutionFile hload hh, ?_, fun limit => ?_⟩
  · rw [← gaps_eq_nil_iff_contiguous hnumbered, hrun, execute_check hload]
    cases c.gaps with
    | nil => exact ⟨_, rfl, by simp [ExitCode.number], by simp [ExitCode.number]⟩
    | cons g gs => exact ⟨_, rfl, by simp [ExitCode.number], by simp [ExitCode.number]⟩
  · rw [execute_check_recounted hload, hrun]

/-- Two files are named for the second solution of a category and none for the first. -/
def doubledDisk : Disk :=
  (Disk.empty.store "data/raw/a/a-2.edges" (.text "p c\n")).store "data/raw/a/a-02.edges"
    (.text "p c\n")

def doubledCatalog : Catalog := ⟨"data/raw", "edges", [⟨"a", [2, 2], 2⟩]⟩

theorem load_doubledDisk :
    Catalog.load doubledDisk Config.default.catalog = .ok doubledCatalog := by
  have hlisting : listing doubledDisk Config.default.catalog = .ok ["a"] := by decide +kernel
  have hfiles : (numbered doubledDisk "data/raw" "edges" "a").map Prod.snd = [2, 2] := by
    decide +kernel
  have hnumbers : solutionNumbers doubledDisk "data/raw" "edges" "a" = .ok [2, 2] := by
    rw [solutionNumbers_of_isDirectory (by decide +kernel), hfiles,
      List.mergeSort_of_pairwise (by decide)]
  refine load_eq_ok_iff.2 ⟨by decide +kernel, rfl, rfl, ⟨_, hlisting, rfl⟩, fun h hh => ?_⟩
  obtain rfl := List.mem_singleton.1 hh
  exact ⟨hnumbers, rfl⟩

theorem numbering_checked_doubled :
    let i : Invocation := ⟨.check, none⟩
    i.settings doubledDisk = .ok Config.default ∧
      Catalog.load doubledDisk Config.default.catalog = .ok doubledCatalog ∧
      List.Forall₂ IsGap doubledCatalog.holdings [⟨"a", [1]⟩] ∧
      ∃ code, (i.run false doubledDisk).result = .ok code ∧ code.number = 2 := by
  intro i
  have hsettings : i.settings doubledDisk = .ok Config.default := by decide +kernel
  obtain ⟨hgaps, hcheck⟩ := numbering_checked (.inl ⟨_, _, load_doubledDisk⟩)
  obtain ⟨-, ⟨code, hcode, -, htwo⟩, -⟩ :=
    hcheck doubledDisk i Config.default rfl hsettings load_doubledDisk false
  refine ⟨hsettings, load_doubledDisk, hgaps, code, hcode, htwo.2 fun h => ?_⟩
  obtain ⟨m, hm⟩ := h _ List.mem_cons_self
  have htwo := ((hm 2).1 List.mem_cons_self).2
  exact absurd ((hm 1).2 ⟨Nat.le_refl 1, by omega⟩) (by decide)

end TreeCorpus
