import TreeCorpus.Proofs.Catalog.FileName
import TreeCorpus.Proofs.Catalog.Scan

/-!
# Found numbers and gaps

The numbers found for a category are those of its solution files, one for each file, in ascending
order (`solutionNumbers_eq_ok_iff`). A gap is a number that is missing below a found one
(`mem_missingFrom_iff`); the gaps of a catalog are those of its categories that have some, in order
(`forall₂_gaps`). A category without a gap has the file of every number up to how many were found if
no file is numbered with a leading zero (`PlainlyNumbered.exists_file`), and only then
(`plainlyNumbered_of_exists_file`).
-/

namespace TreeCorpus

/-- The missing numbers, of numbers in ascending order, are those that are not found and below one
that is. -/
theorem mem_missingFrom_iff {ns : List Nat} {next k : Nat} (hns : ns.Pairwise (· ≤ ·)) :
    k ∈ missingFrom next ns ↔ next ≤ k ∧ k ∉ ns ∧ ∃ n ∈ ns, k < n := by
  induction ns generalizing next with
  | nil => simp [missingFrom]
  | cons n ns ih =>
    obtain ⟨hn, hrest⟩ := List.pairwise_cons.1 hns
    rw [missingFrom, List.mem_append, List.mem_range'_1, ih hrest, List.mem_cons]
    constructor
    · rintro (⟨hlow, hhigh⟩ | ⟨hlow, hk, m, hm, hkm⟩)
      · have hkn : k < n := by omega
        refine ⟨hlow, ?_, n, List.mem_cons_self, hkn⟩
        rintro (rfl | hk)
        · exact Nat.lt_irrefl _ hkn
        · exact absurd (hn k hk) (Nat.not_le.2 hkn)
      · refine ⟨by omega, ?_, m, List.mem_cons_of_mem n hm, hkm⟩
        rintro (rfl | hk')
        · omega
        · exact hk hk'
    · rintro ⟨hlow, hk, m, hm, hkm⟩
      obtain ⟨hkn, hk⟩ := not_or.1 hk
      by_cases hlt : k < n
      · exact Or.inl ⟨hlow, by omega⟩
      · refine Or.inr ⟨by omega, hk, m, ?_, hkm⟩
        rcases List.mem_cons.1 hm with rfl | hm
        · exact absurd hkm hlt
        · exact hm

theorem le_of_mem_missingFrom {ns : List Nat} {next k : Nat} (h : k ∈ missingFrom next ns) :
    next ≤ k := by
  induction ns generalizing next with
  | nil => exact absurd h List.not_mem_nil
  | cons n ns ih =>
    rcases List.mem_append.1 h with h | h
    · exact (List.mem_range'_1.1 h).1
    · exact Nat.le_trans (Nat.le_max_left ..) (ih h)

theorem pairwise_missingFrom (next : Nat) (ns : List Nat) :
    (missingFrom next ns).Pairwise (· < ·) := by
  induction ns generalizing next with
  | nil => exact List.Pairwise.nil
  | cons n ns ih =>
    refine List.pairwise_append.2 ⟨List.pairwise_lt_range' .., ih _, fun a ha b hb => ?_⟩
    have hlt := (List.mem_range'_1.1 ha).2
    have hle := le_of_mem_missingFrom hb
    omega

section Positive

variable {ns : List Nat} (hns : ns.Pairwise (· ≤ ·)) (hpos : ∀ n ∈ ns, 1 ≤ n)

include hns

theorem missingNumbers_eq_nil_iff :
    missingNumbers ns = [] ↔ ¬ ∃ n ∈ ns, ∃ k < n, 1 ≤ k ∧ k ∉ ns := by
  rw [List.eq_nil_iff_forall_not_mem]
  constructor
  · rintro h ⟨n, hn, k, hkn, hk, hmem⟩
    exact h k ((mem_missingFrom_iff hns).2 ⟨hk, hmem, n, hn, hkn⟩)
  · intro h k hk
    obtain ⟨hk, hmem, n, hn, hkn⟩ := (mem_missingFrom_iff hns).1 hk
    exact h ⟨n, hn, k, hkn, hk, hmem⟩

include hpos

/-- The missing and the found numbers are those up to the highest one found. -/
theorem missing_or_found_iff {m k : Nat} (hm : ns.max? = some m) :
    k ∈ missingNumbers ns ∨ k ∈ ns ↔ 1 ≤ k ∧ k ≤ m := by
  obtain ⟨hmem, hmax⟩ := List.max?_eq_some_iff.1 hm
  unfold missingNumbers
  rw [mem_missingFrom_iff hns]
  constructor
  · rintro (⟨hk, -, n, hn, hkn⟩ | hk)
    · exact ⟨hk, Nat.le_trans (Nat.le_of_lt hkn) (hmax n hn)⟩
    · exact ⟨hpos k hk, hmax k hk⟩
  · rintro ⟨hk, hkm⟩
    by_cases hfound : k ∈ ns
    · exact Or.inr hfound
    · have hne : k ≠ m := fun h => hfound (h ▸ hmem)
      exact Or.inl ⟨hk, hfound, m, hmem, by omega⟩

/-- Nothing is missing exactly if the found numbers are those from one up to some number. -/
theorem missingNumbers_eq_nil_iff_range :
    missingNumbers ns = [] ↔ ∃ m, ∀ k, k ∈ ns ↔ 1 ≤ k ∧ k ≤ m := by
  constructor
  · intro hgap
    cases hm : ns.max? with
    | none =>
      rw [List.max?_eq_none_iff.1 hm]
      exact ⟨0, fun k => ⟨fun h => absurd h List.not_mem_nil, fun h => by omega⟩⟩
    | some m =>
      refine ⟨m, fun k => ?_⟩
      rw [← missing_or_found_iff hns hpos hm, hgap]
      simp
  · rintro ⟨m, hm⟩
    rw [missingNumbers_eq_nil_iff hns]
    rintro ⟨n, hn, k, hkn, hk, hmissing⟩
    have hnm := ((hm n).1 hn).2
    exact hmissing ((hm k).2 ⟨hk, by omega⟩)

end Positive

/-- Distinct numbers without a gap are all numbers up to how many there are. -/
theorem mem_of_missingNumbers_eq_nil {ns : List Nat} {k : Nat} (hns : ns.Pairwise (· ≤ ·))
    (hdistinct : ns.Nodup) (hpos : ∀ n ∈ ns, 1 ≤ n) (hgap : missingNumbers ns = []) (hk : 1 ≤ k)
    (hkn : k ≤ ns.length) : k ∈ ns := by
  by_contra hmem
  have habove : ∀ n ∈ ns, ¬ k < n := by
    intro n hn hlt
    have hmissing : k ∈ missingNumbers ns := (mem_missingFrom_iff hns).2 ⟨hk, hmem, n, hn, hlt⟩
    rw [hgap] at hmissing
    exact absurd hmissing List.not_mem_nil
  -- the numbers are too many for those below `k`
  have hbelow : ns ⊆ List.range' 1 (k - 1) := by
    intro n hn
    have hne : n ≠ k := fun h => hmem (h ▸ hn)
    have h₁ := hpos n hn
    have h₂ := habove n hn
    exact List.mem_range'_1.2 ⟨h₁, by omega⟩
  have hlength := hdistinct.length_le_of_subset hbelow
  rw [List.length_range'] at hlength
  omega

namespace Catalog

open Number

variable {d : Disk} {root extension category name : String} {ns : List Nat} {n : Nat}

theorem gaps_eq_nil_iff {c : Catalog} :
    c.gaps = [] ↔ ∀ h ∈ c.holdings, missingNumbers h.numbers = [] := by
  unfold gaps
  rw [List.filterMap_eq_nil_iff]
  apply forall₂_congr
  intro h _
  cases missingNumbers h.numbers with
  | nil => exact ⟨fun _ => rfl, fun _ => rfl⟩
  | cons m ms => exact ⟨fun h => absurd h (by simp), fun h => absurd h (by simp)⟩

/-- A number below a found one is not found. -/
def HasMissing (h : Holding) : Prop :=
  ∃ n ∈ h.numbers, ∃ k < n, 1 ≤ k ∧ k ∉ h.numbers

instance (h : Holding) : Decidable (HasMissing h) :=
  inferInstanceAs (Decidable (∃ n ∈ h.numbers, ∃ k < n, 1 ≤ k ∧ k ∉ h.numbers))

/-- The gap lists, in ascending order, what the found numbers lack up to the highest one. -/
structure IsGap (h : Holding) (g : Gap) : Prop where
  category_eq : g.category = h.name
  increasing : g.missing.Pairwise (· < ·)
  disjoint : ∀ k ∈ g.missing, k ∉ h.numbers
  covers : ∃ m, h.numbers.max? = some m ∧
    ∀ k, k ∈ g.missing ∨ k ∈ h.numbers ↔ 1 ≤ k ∧ k ≤ m

/-- The found numbers count from one, in ascending order. -/
structure Numbered (h : Holding) : Prop where
  ascending : h.numbers.Pairwise (· ≤ ·)
  one_le : ∀ n ∈ h.numbers, 1 ≤ n

theorem Numbered.missing_eq_nil_iff {h : Holding} (hh : Numbered h) :
    missingNumbers h.numbers = [] ↔ ¬ HasMissing h := missingNumbers_eq_nil_iff hh.ascending

theorem Numbered.isGap {h : Holding} (hh : Numbered h) (hm : HasMissing h) :
    IsGap h ⟨h.name, missingNumbers h.numbers⟩ where
  category_eq := rfl
  increasing := pairwise_missingFrom 1 h.numbers
  disjoint k hk := ((mem_missingFrom_iff hh.ascending).1 hk).2.1
  covers := by
    obtain ⟨n, hn, -⟩ := hm
    obtain ⟨m, hmax⟩ := Option.isSome_iff_exists.1 (List.isSome_max?_of_mem hn)
    exact ⟨m, hmax, fun k => missing_or_found_iff hh.ascending hh.one_le hmax⟩

theorem gaps_eq_map {c : Catalog} (hc : ∀ h ∈ c.holdings, Numbered h) :
    c.gaps =
      (c.holdings.filter (HasMissing ·)).map fun h => ⟨h.name, missingNumbers h.numbers⟩ := by
  unfold gaps
  rw [← List.filterMap_eq_map, List.filterMap_filter]
  apply List.filterMap_congr
  intro h hh
  have hiff := (hc h hh).missing_eq_nil_iff
  cases hgap : missingNumbers h.numbers with
  | nil =>
    have hm : ¬ HasMissing h := hiff.1 hgap
    simp [hm]
  | cons n ns =>
    have hm : HasMissing h := by
      by_contra hm
      exact absurd (hgap.symm.trans (hiff.2 hm)) (by simp)
    simp [hm, hgap]

/-- Each category with a missing number has one gap, and they stand in the order of the
categories. -/
theorem forall₂_gaps {c : Catalog} (hc : ∀ h ∈ c.holdings, Numbered h) :
    List.Forall₂ IsGap (c.holdings.filter (HasMissing ·)) c.gaps := by
  rw [gaps_eq_map hc, List.forall₂_map_right_iff, List.forall₂_same]
  intro h hh
  obtain ⟨hmem, hm⟩ := List.mem_filter.1 hh
  exact (hc h hmem).isGap (of_decide_eq_true hm)

/-! ## Files with their numbers -/

/-- The number of an entry that is a solution file. -/
def entryNumber? (category extension : String) : String × Item → Option Nat
  | (name, .file _) => solutionNumber? category extension name
  | _ => none

theorem entryNumber?_eq_some_iff {i : Item} :
    entryNumber? category extension (name, i) = some n ↔
      (∃ content, i = .file content) ∧ solutionNumber? category extension name = some n := by
  cases i with
  | file content => exact ⟨fun h => ⟨⟨content, rfl⟩, h⟩, fun h => h.2⟩
  | directory => simp [entryNumber?]
  | link target => simp [entryNumber?]

/-- The solution files of a category, each with its number. -/
def numbered (d : Disk) (root extension category : String) : List (String × Nat) :=
  (d.entries (Path.join root category)).filterMap fun e =>
    (entryNumber? category extension e).map (e.1, ·)

theorem mem_numbered_iff :
    (name, n) ∈ numbered d root extension category ↔
      (∃ content, (name, .file content) ∈ d.entries (Path.join root category)) ∧
        solutionNumber? category extension name = some n := by
  unfold numbered
  rw [List.mem_filterMap]
  constructor
  · rintro ⟨⟨name', i⟩, he, hn⟩
    obtain ⟨m, hm, heq⟩ := Option.map_eq_some_iff.1 hn
    obtain ⟨rfl, rfl⟩ := Prod.mk.inj heq
    obtain ⟨⟨content, rfl⟩, hnumber⟩ := entryNumber?_eq_some_iff.1 hm
    exact ⟨⟨content, he⟩, hnumber⟩
  · rintro ⟨⟨content, he⟩, hn⟩
    have hnumber := entryNumber?_eq_some_iff.2 ⟨⟨content, rfl⟩, hn⟩
    exact ⟨_, he, Option.map_eq_some_iff.2 ⟨n, hnumber, rfl⟩⟩

/-- No file is counted twice. -/
theorem nodup_numbered (d : Disk) (root extension category : String) :
    ((numbered d root extension category).map Prod.fst).Nodup := by
  refine (sublist_map_filterMap Prod.fst Prod.fst (fun e p hp => ?_) _).nodup
    (d.nodup_entries (Path.join root category))
  obtain ⟨m, -, rfl⟩ := Option.map_eq_some_iff.1 hp
  rfl

/-- The numbers found are those of the solution files. -/
theorem solutionNumbers_eq_ok_iff :
    solutionNumbers d root extension category = .ok ns ↔
      d.isDirectory (Path.join root category) = true ∧
        ns = ((numbered d root extension category).map Prod.snd).mergeSort (· ≤ ·) := by
  have hfound {f : String × Item → Option Nat} (hf : ∀ e, f e = entryNumber? category extension e) :
      (d.entries (Path.join root category)).filterMap f =
        (numbered d root extension category).map Prod.snd := by
    obtain rfl := funext hf
    unfold numbered
    rw [List.map_filterMap]
    apply List.filterMap_congr
    intro e _
    rw [Option.map_map]
    exact Option.map_id'.symm
  unfold solutionNumbers
  by_cases hdir : d.isDirectory (Path.join root category) = true
  · simp only [hdir, if_true, true_and, Except.ok.injEq]
    rw [hfound, eq_comm]
    rintro ⟨name, i⟩
    cases i <;> rfl
  · simp [hdir]

section Found

variable (h : solutionNumbers d root extension category = .ok ns)

include h

theorem pairwise_numbers : ns.Pairwise (· ≤ ·) := by
  obtain ⟨-, rfl⟩ := solutionNumbers_eq_ok_iff.1 h
  apply List.Pairwise.imp (R := fun a b => decide (a ≤ b) = true) of_decide_eq_true
  apply List.pairwise_mergeSort
  · intro a b c hab hbc
    exact decide_eq_true (Nat.le_trans (of_decide_eq_true hab) (of_decide_eq_true hbc))
  · intro a b
    simpa using Nat.le_total a b

theorem mem_numbers_iff :
    n ∈ ns ↔ ∃ name, (name, n) ∈ numbered d root extension category := by
  obtain ⟨-, rfl⟩ := solutionNumbers_eq_ok_iff.1 h
  rw [List.mem_mergeSort, List.mem_map]
  constructor
  · rintro ⟨⟨name, _⟩, hmem, rfl⟩
    exact ⟨name, hmem⟩
  · rintro ⟨name, hmem⟩
    exact ⟨_, hmem, rfl⟩

theorem length_numbers : (numbered d root extension category).length = ns.length := by
  obtain ⟨-, rfl⟩ := solutionNumbers_eq_ok_iff.1 h
  rw [List.length_mergeSort, List.length_map]

theorem one_le_of_mem_numbers (hn : n ∈ ns) : 1 ≤ n := by
  obtain ⟨name, hname⟩ := (mem_numbers_iff h).1 hn
  obtain ⟨-, -, -, hpos⟩ := solutionNumber?_eq_some_iff.1 (mem_numbered_iff.1 hname).2
  exact hpos

end Found

theorem solutionNumbers_of_isDirectory (hdir : d.isDirectory (Path.join root category) = true) :
    solutionNumbers d root extension category =
      .ok (((numbered d root extension category).map Prod.snd).mergeSort (· ≤ ·)) :=
  solutionNumbers_eq_ok_iff.2 ⟨hdir, rfl⟩

/-- The numbers of a category depend on its directory only. -/
theorem solutionNumbers_congr {d' : Disk} (h : d.SameDirectory d' (Path.join root category)) :
    solutionNumbers d' root extension category = solutionNumbers d root extension category := by
  have hsame := Disk.isDirectory_congr h.resolve_eq h.lookup_eq
  by_cases hdir : d.isDirectory (Path.join root category) = true
  · have hn : solutionNumbers d root extension category = _ := solutionNumbers_of_isDirectory hdir
    have hn' : solutionNumbers d' root extension category = _ :=
      solutionNumbers_of_isDirectory (hsame.trans hdir)
    have hperm : ((numbered d' root extension category).map Prod.snd).Perm
        ((numbered d root extension category).map Prod.snd) :=
      (h.perm_entries.filterMap _).map Prod.snd
    rw [hn, hn', Except.ok.injEq]
    exact List.Perm.eq_of_pairwise (fun a b _ _ => Nat.le_antisymm) (pairwise_numbers hn')
      (pairwise_numbers hn)
      ((List.mergeSort_perm _ _).trans (hperm.trans (List.mergeSort_perm _ _).symm))
  · rw [solutionNumbers_of_not_isDirectory hdir,
      solutionNumbers_of_not_isDirectory (hsame.symm ▸ hdir)]

/-! ## Leading zeros -/

/-- No solution file of the category is numbered with a leading zero. -/
def PlainlyNumbered (d : Disk) (root extension category : String) : Prop :=
  ∀ name n, (name, n) ∈ numbered d root extension category → ¬ LeadingZero category name

/-- Files without leading zeros have distinct numbers. -/
theorem PlainlyNumbered.nodup (hplain : PlainlyNumbered d root extension category)
    (h : solutionNumbers d root extension category = .ok ns) : ns.Nodup := by
  obtain ⟨-, rfl⟩ := solutionNumbers_eq_ok_iff.1 h
  rw [(List.mergeSort_perm _ _).nodup_iff]
  have hnames : (numbered d root extension category).map Prod.fst =
      ((numbered d root extension category).map Prod.snd).map (fileName category extension) := by
    rw [List.map_map]
    apply List.map_congr_left
    rintro ⟨name, n⟩ hmem
    exact eq_fileName (mem_numbered_iff.1 hmem).2 (hplain name n hmem)
  exact List.Nodup.of_map _ (hnames ▸ nodup_numbered d root extension category)

/-- Without leading zeros and gaps the file of each number up to how many were found is there. -/
theorem PlainlyNumbered.exists_file (hplain : PlainlyNumbered d root extension category)
    (h : solutionNumbers d root extension category = .ok ns) (hgap : missingNumbers ns = [])
    (hn : 1 ≤ n) (hle : n ≤ ns.length) :
    ∃ content, (fileName category extension n, .file content) ∈
      d.entries (Path.join root category) := by
  have hmem : n ∈ ns := mem_of_missingNumbers_eq_nil (pairwise_numbers h) (hplain.nodup h)
    (fun _ => one_le_of_mem_numbers h) hgap hn hle
  obtain ⟨name, hname⟩ := (mem_numbers_iff h).1 hmem
  obtain ⟨⟨content, hentry⟩, hnumber⟩ := mem_numbered_iff.1 hname
  exact ⟨content, eq_fileName hnumber (hplain name n hname) ▸ hentry⟩

/-- If the file of each number up to how many were found is there, none has a leading zero. -/
theorem plainlyNumbered_of_exists_file
    (h : solutionNumbers d root extension category = .ok ns) (hsize : ns.length < sizeLimit)
    (hfiles : ∀ n, 1 ≤ n → n ≤ ns.length → ∃ content,
      (fileName category extension n, .file content) ∈ d.entries (Path.join root category)) :
    PlainlyNumbered d root extension category := by
  intro name n hname hzero
  -- the files named plainly are already as many as the numbers found
  have hnames : (name :: (List.range' 1 ns.length).map (fileName category extension)).Nodup := by
    rw [List.nodup_cons]
    constructor
    · intro hmem
      obtain ⟨k, hk, rfl⟩ := List.mem_map.1 hmem
      exact not_leadingZero_fileName (List.mem_range'_1.1 hk).1 hzero
    · have hinj : Function.Injective (fileName category extension) := fun _ _ hk =>
        (fileName_inj hk).2
      exact (List.nodup_range' 1).map hinj
  have hsubset : name :: (List.range' 1 ns.length).map (fileName category extension) ⊆
      (numbered d root extension category).map Prod.fst := by
    intro m hm
    rcases List.mem_cons.1 hm with rfl | hm
    · exact List.mem_map_of_mem hname
    · obtain ⟨k, hk, rfl⟩ := List.mem_map.1 hm
      obtain ⟨hpos, hlt⟩ := List.mem_range'_1.1 hk
      have hfile := mem_numbered_iff.2 ⟨hfiles k hpos (by omega),
        solutionNumber?_fileName hpos (by omega)⟩
      exact List.mem_map_of_mem hfile
  have hlength := hnames.length_le_of_subset hsubset
  rw [List.length_cons, List.length_map, List.length_range', List.length_map,
    length_numbers h] at hlength
  omega

end Catalog

end TreeCorpus
