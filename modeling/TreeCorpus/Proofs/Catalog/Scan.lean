import TreeCorpus.Catalog.Index
import TreeCorpus.Proofs.Disk.Entries
import TreeCorpus.Proofs.Outcome

/-!
# What a scan finds

A catalog is loaded exactly when its root is a directory, its names can be listed and every one of
them, up to the limit, has a directory; it then holds these names with the numbers found there
(`load_eq_ok_iff`). A listing that comes from the disk names no category twice, one in the settings
may (`nodup_names_iff`).
-/

namespace TreeCorpus

/-- The first names, as many as the settings allow. -/
def CatalogSettings.limited (s : CatalogSettings) (names : List String) : List String :=
  (s.categoryLimit.map (names.take ·)).getD names

theorem CatalogSettings.limited_sublist (s : CatalogSettings) (names : List String) :
    (s.limited names).Sublist names := by
  unfold limited
  cases s.categoryLimit with
  | none => exact List.Sublist.refl names
  | some limit => exact List.take_sublist limit names

namespace Catalog

variable {d : Disk} {s : CatalogSettings} {root : String} {names : List String} {c : Catalog}

/-! ## The names -/

section Entries

variable {r : Location} {name : String} {i : Item} {es : List (String × Item)}

theorem categoryNames_cons_of_ok {keep : Bool} (h : entryIsCategory d root r name i = .ok keep) :
    categoryNames d root r ((name, i) :: es) =
      (categoryNames d root r es).map fun names => if keep then name :: names else names := by
  rw [categoryNames, h]

theorem categoryNames_cons_of_error {e : Error} (h : entryIsCategory d root r name i = .error e) :
    categoryNames d root r ((name, i) :: es) = .error e := by
  rw [categoryNames, h]

/-- The categories among some entries are names of these entries, in order. -/
theorem sublist_of_categoryNames (h : categoryNames d root r es = .ok names) :
    names.Sublist (es.map Prod.fst) := by
  induction es generalizing names with
  | nil => exact Except.ok.inj h ▸ .slnil
  | cons e es ih =>
    obtain ⟨name, i⟩ := e
    cases hkeep : entryIsCategory d root r name i with
    | error e =>
      rw [categoryNames_cons_of_error hkeep] at h
      exact nomatch h
    | ok keep =>
      rw [categoryNames_cons_of_ok hkeep] at h
      obtain ⟨rest, hrest, rfl⟩ := map_eq_ok_iff.1 h
      have hsub := ih hrest
      cases keep with
      | true => exact hsub.cons_cons name
      | false => exact hsub.cons name

end Entries

/-- The directories below a root have distinct names. -/
theorem nodup_categoryDirectories (h : categoryDirectories d root = .ok names) :
    names.Nodup := by
  unfold categoryDirectories at h
  split at h
  · rename_i loc _
    have hperm := (List.mergeSort_perm (d.entriesAt loc) fun a b => nameLe a.1 b.1).map Prod.fst
    exact (sublist_of_categoryNames h).nodup (hperm.nodup_iff.2 (Disk.nodup_entriesAt d loc))
  · exact absurd h (by simp)

/-! ## The numbers -/

theorem solutionNumbers_of_not_isDirectory {extension category : String}
    (hdir : ¬ d.isDirectory (Path.join root category) = true) :
    solutionNumbers d root extension category =
      .error (.catalog (Path.join root category) (.missingCategory category)) := if_neg hdir

/-- Numbers are missing only where there is no directory. -/
theorem eq_missing_of_solutionNumbers {extension category : String} {e : Error}
    (h : solutionNumbers d root extension category = .error e) :
    e = .catalog (Path.join root category) (.missingCategory category) := by
  by_cases hdir : d.isDirectory (Path.join root category) = true
  · have hok : ∃ ns, solutionNumbers d root extension category = .ok ns := ⟨_, if_pos hdir⟩
    obtain ⟨ns, hns⟩ := hok
    exact nomatch hns.symm.trans h
  · exact Except.error.inj (h.symm.trans (solutionNumbers_of_not_isDirectory hdir))

/-- The holding has the numbers that are found in the directory of its name, and counts them up to
the limit of the settings. -/
structure IsScanned (d : Disk) (s : CatalogSettings) (h : Holding) : Prop where
  numbers_eq : solutionNumbers d s.root s.extension h.name = .ok h.numbers
  count_eq : h.count = (s.perCategoryLimit.map (min h.numbers.length)).getD h.numbers.length

theorem IsScanned.count_le {h : Holding} (hs : IsScanned d s h) : h.count ≤ h.numbers.length := by
  rw [hs.count_eq]
  cases s.perCategoryLimit with
  | none => exact Nat.le_refl _
  | some cap => exact Nat.min_le_left ..

theorem scanHoldings_eq_ok_iff {hs : List Holding} :
    scanHoldings d s names = .ok hs ↔
      hs.map Holding.name = names ∧ ∀ h ∈ hs, IsScanned d s h := by
  induction names generalizing hs with
  | nil =>
    unfold scanHoldings
    rw [Except.ok.injEq, List.map_eq_nil_iff]
    constructor
    · rintro rfl
      exact ⟨rfl, fun h hh => absurd hh List.not_mem_nil⟩
    · rintro ⟨rfl, -⟩
      rfl
  | cons name names ih =>
    unfold scanHoldings
    constructor
    · intro h
      cases hn : solutionNumbers d s.root s.extension name with
      | error e =>
        rw [hn] at h
        exact absurd h (by simp)
      | ok numbers =>
        simp only [hn] at h
        obtain ⟨rest, hrest, rfl⟩ := map_eq_ok_iff.1 h
        obtain ⟨hnames, hscanned⟩ := ih.1 hrest
        exact ⟨by rw [List.map_cons, hnames], List.forall_mem_cons.2 ⟨⟨hn, rfl⟩, hscanned⟩⟩
    · rintro ⟨hnames, hscanned⟩
      obtain ⟨h, rest, rfl, rfl, hrest⟩ := List.map_eq_cons_iff.1 hnames
      obtain ⟨hhead, htail⟩ := List.forall_mem_cons.1 hscanned
      simp only [hhead.numbers_eq, ih.2 ⟨hrest, htail⟩, ← hhead.count_eq]
      rfl

/-- A scan of names stops at one without a directory. -/
theorem exists_missing_of_scanHoldings {e : Error} (h : scanHoldings d s names = .error e) :
    ∃ name ∈ names, e = .catalog (Path.join s.root name) (.missingCategory name) := by
  induction names with
  | nil => exact nomatch h
  | cons name names ih =>
    unfold scanHoldings at h
    cases hn : solutionNumbers d s.root s.extension name with
    | error e' =>
      rw [hn] at h
      obtain rfl := Except.error.inj h
      exact ⟨name, List.mem_cons_self, eq_missing_of_solutionNumbers hn⟩
    | ok numbers =>
      simp only [hn] at h
      obtain ⟨name', hmem, he⟩ := ih (map_eq_error_iff.1 h)
      exact ⟨name', List.mem_cons_of_mem _ hmem, he⟩

/-- Only the numbers of the names decide what is scanned. -/
theorem scanHoldings_congr {d' : Disk} (h : ∀ name ∈ names,
      solutionNumbers d' s.root s.extension name = solutionNumbers d s.root s.extension name) :
    scanHoldings d' s names = scanHoldings d s names := by
  induction names with
  | nil => rfl
  | cons name names ih =>
    obtain ⟨hhead, htail⟩ := List.forall_mem_cons.1 h
    unfold scanHoldings
    rw [hhead, ih htail]

/-! ## The catalog -/

theorem load_of_listing (hdir : d.isDirectory s.root = true) (h : listing d s = .ok names) :
    load d s = (scanHoldings d s (s.limited names)).map (⟨s.root, s.extension, ·⟩) := by
  unfold load
  rw [if_pos hdir, h]
  rfl

theorem load_of_listing_error {e : Error} (hdir : d.isDirectory s.root = true)
    (h : listing d s = .error e) : load d s = .error e := by
  unfold load
  rw [if_pos hdir, h]

theorem load_of_not_isDirectory (hdir : ¬ d.isDirectory s.root = true) :
    load d s = .error (.catalog s.root .rootNotADirectory) := if_neg hdir

/-- What is loaded is the listing up to its limit, each name with what is found for it. -/
theorem load_eq_ok_iff :
    load d s = .ok c ↔
      d.isDirectory s.root = true ∧ c.root = s.root ∧ c.extension = s.extension ∧
        (∃ listed, listing d s = .ok listed ∧ c.names = s.limited listed) ∧
        ∀ h ∈ c.holdings, IsScanned d s h := by
  obtain ⟨root, extension, holdings⟩ := c
  have hscan (listed : List String) :
      (scanHoldings d s (s.limited listed)).map (⟨s.root, s.extension, ·⟩) =
          .ok (⟨root, extension, holdings⟩ : Catalog) ↔
        root = s.root ∧ extension = s.extension ∧
          holdings.map Holding.name = s.limited listed ∧ ∀ h ∈ holdings, IsScanned d s h := by
    rw [map_eq_ok_iff]
    constructor
    · rintro ⟨hs, hh, he⟩
      obtain ⟨rfl, rfl, rfl⟩ := Catalog.mk.inj he
      exact ⟨rfl, rfl, scanHoldings_eq_ok_iff.1 hh⟩
    · rintro ⟨rfl, rfl, hh⟩
      exact ⟨holdings, scanHoldings_eq_ok_iff.2 hh, rfl⟩
  by_cases hroot : d.isDirectory s.root = true
  · cases hl : listing d s with
    | error e =>
      rw [load_of_listing_error hroot hl]
      simp
    | ok listed =>
      rw [load_of_listing hroot hl, hscan listed]
      simp only [hroot, true_and, Except.ok.injEq, exists_eq_left']
      rfl
  · rw [load_of_not_isDirectory hroot]
    simp [hroot]

theorem isScanned_of_load (hc : load d s = .ok c) {h : Holding} (hh : h ∈ c.holdings) :
    IsScanned d s h := by
  obtain ⟨-, -, -, -, hscanned⟩ := load_eq_ok_iff.1 hc
  exact hscanned h hh

/-- A category listed by the settings is taken as it stands. -/
theorem listing_of_ne_nil (h : s.categories ≠ []) : listing d s = .ok s.categories := if_neg h

theorem listing_of_eq_nil (h : s.categories = []) :
    listing d s = categoryDirectories d s.root := if_pos h

/-- The names of a loaded catalog are distinct exactly if they were scanned or the settings list
none of them twice up to the limit. -/
theorem nodup_names_iff (h : load d s = .ok c) :
    c.names.Nodup ↔ s.categories = [] ∨ (s.limited s.categories).Nodup := by
  obtain ⟨-, -, -, ⟨listed, hlisted, hnames⟩, -⟩ := load_eq_ok_iff.1 h
  rw [hnames]
  by_cases hs : s.categories = []
  · rw [listing_of_eq_nil hs] at hlisted
    have hnodup := (s.limited_sublist listed).nodup (nodup_categoryDirectories hlisted)
    exact ⟨fun _ => Or.inl hs, fun _ => hnodup⟩
  · rw [listing_of_ne_nil hs] at hlisted
    obtain rfl := Except.ok.inj hlisted
    exact ⟨Or.inr, fun hor => hor.resolve_left hs⟩

end Catalog

end TreeCorpus
