import TreeCorpus.Disk.Edit
import TreeCorpus.Proofs.Catalog.Directories
import TreeCorpus.Proofs.Catalog.Gaps
import TreeCorpus.Proofs.Disk.Below

/-!
# Hidden entries of the root

Two disks that differ in hidden entries of the root only (`AgreeOnVisible`) give the same catalog,
or the same error, unless one of these entries is a link that leads nowhere or back to the root
(`Unfollowable`). Such a link is an error whatever its name is, and the first one by name is the
error that is given (`load_of_hidden_entries`, `load_eq_badEntry_iff`).
-/

namespace TreeCorpus.Catalog

variable {d d' : Disk} {s : CatalogSettings} {root name : String} {r loc : Location} {i : Item}

/-! ## Below hidden entries -/

/-- The location is that of a hidden entry of the directory `r`, or below such an entry. -/
def IsHiddenBelow (r loc : Location) : Prop :=
  ∃ name below, isHidden name = true ∧ loc = r ++ name :: below

theorem isHiddenBelow_concat_iff : IsHiddenBelow r (r ++ [name]) ↔ isHidden name = true := by
  constructor
  · rintro ⟨name', below, hhidden, heq⟩
    obtain ⟨rfl, -⟩ := List.cons.inj (List.append_cancel_left heq)
    exact hhidden
  · intro hhidden
    exact ⟨name, [], hhidden, rfl⟩

theorem not_isHiddenBelow_self : ¬ IsHiddenBelow r r := by
  rintro ⟨name, below, -, heq⟩
  exact absurd (List.self_eq_append_right.1 heq) (by simp)

/-- What is below a place other than the root is below a hidden entry only if that place is. -/
theorem IsHiddenBelow.of_concat (h : IsHiddenBelow r (loc ++ [name])) (hloc : loc ≠ r) :
    IsHiddenBelow r loc := by
  obtain ⟨hidden, below, hhidden, heq⟩ := h
  rcases List.eq_nil_or_concat below with rfl | ⟨between, last, rfl⟩
  · exact absurd (List.append_inj' heq rfl).1 hloc
  · rw [List.concat_eq_append, ← List.cons_append, ← List.append_assoc] at heq
    exact ⟨hidden, between, hhidden, (List.append_inj' heq rfl).1⟩

/-! ## Links that cannot be followed -/

/-- The name is that of a link in the root that leads nowhere, or back to the root. -/
def Unfollowable (d : Disk) (root name : String) : Prop :=
  ∃ r target, d.resolve root = .arrived r ∧ d.lookup r = some .directory ∧
    d.lookup (r ++ [name]) = some (.link target) ∧
    ∀ loc, d.resolve (Path.join root name) = .arrived loc → loc = r

theorem unfollowable_iff (hr : d.resolve root = .arrived r)
    (hroot : d.lookup r = some .directory) :
    Unfollowable d root name ↔
      ∃ i, (name, i) ∈ d.entriesAt r ∧ ∃ e, entryIsCategory d root r name i = .error e := by
  constructor
  · rintro ⟨r', target, hr', -, hi, hlost⟩
    obtain rfl := Disk.Walk.arrived.inj (hr.symm.trans hr')
    exact ⟨_, Disk.mem_entriesAt_iff.2 hi, _,
      entryIsCategory_eq_error_iff.2 ⟨⟨target, rfl⟩, hlost, rfl⟩⟩
  · rintro ⟨i, hi, e, he⟩
    obtain ⟨⟨target, rfl⟩, hlost, -⟩ := entryIsCategory_eq_error_iff.1 he
    exact ⟨r, target, hr, hroot, Disk.mem_entriesAt_iff.1 hi, hlost⟩

/-- If every hidden link can be followed, only the visible entries are categories or errors. -/
theorem categoryDirectories_eq_visible (hr : d.resolve root = .arrived r)
    (hroot : d.lookup r = some .directory)
    (hfollow : ∀ name, isHidden name = true → ¬ Unfollowable d root name) :
    categoryDirectories d root =
      categoryNames d root r ((sortByName (d.entriesAt r)).filter fun e => !isHidden e.1) := by
  rw [categoryDirectories_of_resolve hr, categoryNames_filter]
  rintro ⟨name, i⟩ hmem hp
  have hhidden : isHidden name = true := by simpa using hp
  apply entryIsCategory_of_isHidden hhidden
  intro e he
  exact hfollow name hhidden ((unfollowable_iff hr hroot).2 ⟨i, mem_sortByName.1 hmem, e, he⟩)

/-- The first of these links by name. -/
structure IsFirstUnfollowable (d : Disk) (root name : String) : Prop where
  unfollowable : Unfollowable d root name
  le : ∀ n, Unfollowable d root n → nameLe name n = true

theorem IsFirstUnfollowable.unique {n : String} (h : IsFirstUnfollowable d root name)
    (hn : IsFirstUnfollowable d root n) : name = n :=
  nameLe_antisymm (h.le n hn.unfollowable) (hn.le name h.unfollowable)

/-- The error of the listing is the first link that cannot be followed. -/
theorem exists_first_of_categoryDirectories (hr : d.resolve root = .arrived r)
    (hroot : d.lookup r = some .directory) {e : Error} (h : categoryDirectories d root = .error e) :
    ∃ name, IsFirstUnfollowable d root name ∧ e = .catalog (Path.join root name) .badEntry := by
  rw [categoryDirectories_of_resolve hr] at h
  obtain ⟨before, name, i, after, hsplit, hbefore, hfirst⟩ := exists_first_of_categoryNames h
  have hmem {e : String × Item} : e ∈ d.entriesAt r ↔ e ∈ before ++ (name, i) :: after := by
    rw [← hsplit, mem_sortByName]
  have hsorted := pairwise_sortByName (d.entriesAt r)
  rw [hsplit] at hsorted
  obtain ⟨-, -, rfl⟩ := entryIsCategory_eq_error_iff.1 hfirst
  refine ⟨name, ⟨(unfollowable_iff hr hroot).2 ⟨i, hmem.2 (by simp), _, hfirst⟩, ?_⟩, rfl⟩
  -- no other such link stands before it, and those after it have names that are not less
  intro n hn
  obtain ⟨k, hk, e, he⟩ := (unfollowable_iff hr hroot).1 hn
  rcases List.mem_append.1 (hmem.1 hk) with hk | hk
  · obtain ⟨keep, hkeep⟩ := hbefore _ hk
    exact nomatch he.symm.trans hkeep
  rcases List.mem_cons.1 hk with heq | hk
  · obtain ⟨rfl, -⟩ := Prod.mk.inj heq
    simpa using nameLe_total n n
  · exact (List.pairwise_cons.1 (List.pairwise_append.1 hsorted).2.1).1 _ hk

theorem categoryDirectories_ne_ok (hr : d.resolve root = .arrived r)
    (hroot : d.lookup r = some .directory) (h : Unfollowable d root name) (names : List String) :
    categoryDirectories d root ≠ .ok names := by
  intro hnames
  rw [categoryDirectories_of_resolve hr] at hnames
  obtain ⟨i, hi, e, he⟩ := (unfollowable_iff hr hroot).1 h
  obtain ⟨keep, hkeep⟩ := ok_of_categoryNames hnames (mem_sortByName.2 hi)
  exact nomatch he.symm.trans hkeep

/-- The first link by name that cannot be followed is the error of a scan, and a scan has no other
error of this kind. -/
theorem load_eq_badEntry_iff (hs : s.categories = []) {path : String} :
    load d s = .error (.catalog path .badEntry) ↔
      ∃ name, IsFirstUnfollowable d s.root name ∧ path = Path.join s.root name := by
  constructor
  · intro h
    by_cases hdir : d.isDirectory s.root = true
    · obtain ⟨r, hr, hroot⟩ := Disk.isDirectory_iff.1 hdir
      cases hl : listing d s with
      | error e =>
        obtain rfl := Except.error.inj ((load_of_listing_error hdir hl).symm.trans h)
        rw [listing_of_eq_nil hs] at hl
        obtain ⟨name, hfirst, he⟩ := exists_first_of_categoryDirectories hr hroot hl
        exact ⟨name, hfirst, (Error.catalog.inj he).1⟩
      | ok names =>
        rw [load_of_listing hdir hl, map_eq_error_iff] at h
        obtain ⟨name, -, he⟩ := exists_missing_of_scanHoldings h
        exact nomatch (Error.catalog.inj he).2
    · rw [load_of_not_isDirectory hdir] at h
      exact nomatch (Error.catalog.inj (Except.error.inj h)).2
  · rintro ⟨name, hfirst, rfl⟩
    obtain ⟨r, -, hr, hroot, -⟩ := hfirst.unfollowable
    apply load_of_listing_error (Disk.isDirectory_iff.2 ⟨r, hr, hroot⟩)
    rw [listing_of_eq_nil hs]
    cases hnames : categoryDirectories d s.root with
    | ok names => exact absurd hnames (categoryDirectories_ne_ok hr hroot hfirst.unfollowable names)
    | error e =>
      obtain ⟨n, hn, rfl⟩ := exists_first_of_categoryDirectories hr hroot hnames
      rw [hfirst.unique hn]

theorem Unfollowable.exists_first (h : Unfollowable d root name) :
    ∃ first, IsFirstUnfollowable d root first := by
  obtain ⟨r, -, hr, hroot, -⟩ := id h
  cases hnames : categoryDirectories d root with
  | ok names => exact absurd hnames (categoryDirectories_ne_ok hr hroot h names)
  | error e =>
    obtain ⟨first, hfirst, -⟩ := exists_first_of_categoryDirectories hr hroot hnames
    exact ⟨first, hfirst⟩

/-- On a disk whose entries have names as directories give them, the link is named without a
slash. -/
theorem IsFirstUnfollowable.slash_notMem (h : IsFirstUnfollowable d root name) (hd : d.Named) :
    root ≠ "" ∧ '/' ∉ name.toList := by
  obtain ⟨r, target, hr, -, hi, -⟩ := h.unfollowable
  exact ⟨Disk.ne_empty_of_resolve hr, (hd.isName hi).slash_notMem⟩

/-! ## Disks that differ in hidden entries -/

/-- The disks differ in hidden entries of the root only. The visible links of the root lead, on
both, to one place, which is not below a hidden entry. -/
structure AgreeOnVisible (d d' : Disk) (root : String) : Prop where
  resolve_eq : d'.resolve root = d.resolve root
  lookup_eq : ∀ r, d.resolve root = .arrived r → ∀ loc, ¬ IsHiddenBelow r loc →
    d'.lookup loc = d.lookup loc
  link_eq : ∀ r name target, d.resolve root = .arrived r → isHidden name = false →
    d.lookup (r ++ [name]) = some (.link target) →
      d'.resolve (Path.join root name) = d.resolve (Path.join root name) ∧
        ∀ loc, d.resolve (Path.join root name) = .arrived loc → ¬ IsHiddenBelow r loc

namespace AgreeOnVisible

theorem isDirectory_eq (h : AgreeOnVisible d d' root) : d'.isDirectory root = d.isDirectory root :=
  Disk.isDirectory_congr h.resolve_eq fun r hr => h.lookup_eq r hr r not_isHiddenBelow_self

section Root

variable (h : AgreeOnVisible d d' root) (hr : d.resolve root = .arrived r)

include h hr

theorem lookup_entry_eq (hvisible : isHidden name = false) :
    d'.lookup (r ++ [name]) = d.lookup (r ++ [name]) := by
  apply h.lookup_eq r hr
  rw [isHiddenBelow_concat_iff, hvisible]
  exact Bool.false_ne_true

theorem entryIsCategory_eq (hvisible : isHidden name = false) (hi : (name, i) ∈ d.entriesAt r) :
    entryIsCategory d' root r name i = entryIsCategory d root r name i := by
  cases i with
  | file content => rfl
  | directory => rfl
  | link target =>
    obtain ⟨hsame, hout⟩ := h.link_eq r name target hr hvisible (Disk.mem_entriesAt_iff.1 hi)
    by_cases hto : ∃ loc, d.resolve (Path.join root name) = .arrived loc
    · obtain ⟨loc, hloc⟩ := hto
      rw [entryIsCategory_link (hsame.trans hloc), entryIsCategory_link hloc,
        h.lookup_eq r hr loc (hout loc hloc)]
    · rw [entryIsCategory_link_of_lost (not_exists.1 hto),
        entryIsCategory_link_of_lost (hsame ▸ not_exists.1 hto)]

/-- With links that can be followed the same directories are categories. -/
theorem categoryDirectories_eq (hroot : d.lookup r = some .directory)
    (hfollow : ∀ name, isHidden name = true → ¬ Unfollowable d root name)
    (hfollow' : ∀ name, isHidden name = true → ¬ Unfollowable d' root name) :
    categoryDirectories d' root = categoryDirectories d root := by
  have hroot' : d'.lookup r = some .directory :=
    (h.lookup_eq r hr r not_isHiddenBelow_self).trans hroot
  rw [categoryDirectories_eq_visible hr hroot hfollow,
    categoryDirectories_eq_visible (h.resolve_eq.trans hr) hroot' hfollow']
  have hentries : (sortByName (d'.entriesAt r)).filter (fun e => !isHidden e.1) =
      (sortByName (d.entriesAt r)).filter fun e => !isHidden e.1 := by
    apply filter_sortByName_eq (Disk.nodup_entriesAt d' r) (Disk.nodup_entriesAt d r)
    rintro ⟨name, i⟩ hp
    have hvisible : isHidden name = false := by simpa using hp
    rw [Disk.mem_entriesAt_iff, Disk.mem_entriesAt_iff, h.lookup_entry_eq hr hvisible]
  rw [hentries]
  apply categoryNames_congr
  rintro ⟨name, i⟩ hmem
  obtain ⟨hmem, hp⟩ := List.mem_filter.1 hmem
  have hvisible : isHidden name = false := by simpa using hp
  exact h.entryIsCategory_eq hr hvisible (mem_sortByName.1 hmem)

/-- The directory of a category is the same on both disks. -/
theorem sameDirectory (hd : d.Named) (hroot : d.lookup r = some .directory)
    (hi : (name, i) ∈ d.entriesAt r) (hcategory : entryIsCategory d root r name i = .ok true) :
    d.SameDirectory d' (Path.join root name) := by
  obtain ⟨hvisible, hkind⟩ := entryIsCategory_eq_true_iff.1 hcategory
  have hlookup := Disk.mem_entriesAt_iff.1 hi
  have hplace : d'.resolve (Path.join root name) = d.resolve (Path.join root name) ∧
      ∀ loc, d.resolve (Path.join root name) = .arrived loc →
        loc ≠ r ∧ ¬ IsHiddenBelow r loc := by
    rcases hkind with rfl | ⟨⟨target, rfl⟩, loc, hloc, hne, -⟩
    -- the disks may have other working directories, but the path goes on from the root
    · by_cases hsize : (Path.join root name).utf8ByteSize < Disk.pathLimit
      · have hname := hd.isName hlookup
        have hto := Disk.resolve_join hr hroot hname hlookup (by simp) hsize
        have hto' := Disk.resolve_join (h.resolve_eq.trans hr)
          ((h.lookup_eq r hr r not_isHiddenBelow_self).trans hroot) hname
          ((h.lookup_entry_eq hr hvisible).trans hlookup) (by simp) hsize
        refine ⟨hto'.trans hto.symm, ?_⟩
        intro loc hloc
        obtain rfl := Disk.Walk.arrived.inj (hto.symm.trans hloc)
        rw [isHiddenBelow_concat_iff, hvisible]
        exact ⟨by simp, Bool.false_ne_true⟩
      · obtain ⟨fault, hfault⟩ := Disk.resolve_of_le (Nat.not_lt.1 hsize)
        rw [hfault d', hfault d]
        exact ⟨rfl, fun loc hloc => nomatch hloc⟩
    · obtain ⟨hsame, hout⟩ := h.link_eq r name target hr hvisible hlookup
      refine ⟨hsame, ?_⟩
      intro loc' hloc'
      obtain rfl := Disk.Walk.arrived.inj (hloc.symm.trans hloc')
      exact ⟨hne, hout _ hloc⟩
  refine ⟨hplace.1, fun loc hloc => ?_, fun loc n hloc => ?_⟩
  · exact h.lookup_eq r hr loc (hplace.2 loc hloc).2
  · obtain ⟨hne, hout⟩ := hplace.2 loc hloc
    exact h.lookup_eq r hr _ fun hbelow => hout (hbelow.of_concat hne)

end Root

/-- With links that can be followed the same catalog is loaded. -/
theorem load_eq (h : AgreeOnVisible d d' s.root) (hs : s.categories = []) (hd : d.Named)
    (hfollow : ∀ name, isHidden name = true → ¬ Unfollowable d s.root name)
    (hfollow' : ∀ name, isHidden name = true → ¬ Unfollowable d' s.root name) :
    load d' s = load d s := by
  have hsame := h.isDirectory_eq
  by_cases hdir : d.isDirectory s.root = true
  · obtain ⟨r, hr, hroot⟩ := Disk.isDirectory_iff.1 hdir
    have hlisting : listing d' s = listing d s := by
      rw [listing_of_eq_nil hs, listing_of_eq_nil hs,
        h.categoryDirectories_eq hr hroot hfollow hfollow']
    cases hl : listing d s with
    | error e =>
      rw [load_of_listing_error hdir hl,
        load_of_listing_error (hsame.trans hdir) (hlisting.trans hl)]
    | ok names =>
      rw [load_of_listing hdir hl, load_of_listing (hsame.trans hdir) (hlisting.trans hl)]
      rw [listing_of_eq_nil hs, categoryDirectories_of_resolve hr] at hl
      have hscan : scanHoldings d' s (s.limited names) = scanHoldings d s (s.limited names) := by
        apply scanHoldings_congr
        intro name hname
        obtain ⟨i, hi, hcategory⟩ :=
          (mem_categoryNames_iff hl).1 ((s.limited_sublist names).subset hname)
        exact solutionNumbers_congr (h.sameDirectory hr hd hroot (mem_sortByName.1 hi) hcategory)
      rw [hscan]
  · rw [load_of_not_isDirectory hdir, load_of_not_isDirectory (hsame ▸ hdir)]

end AgreeOnVisible

/-- Two disks that differ in hidden entries only give the same outcome exactly if the first link
that cannot be followed is the same on both. Without such a link among the hidden entries the
outcome is the same; the first such link is the error. -/
theorem load_of_hidden_entries (hs : s.categories = []) (hd : d.Named) (hd' : d'.Named)
    (h : AgreeOnVisible d d' s.root) :
    (load d' s = load d s ↔
        ∀ name, IsFirstUnfollowable d s.root name ↔ IsFirstUnfollowable d' s.root name) ∧
      ((∀ name, isHidden name = true →
          ¬ Unfollowable d s.root name ∧ ¬ Unfollowable d' s.root name) → load d' s = load d s) ∧
      ∀ name, IsFirstUnfollowable d s.root name →
        load d s = .error (.catalog (Path.join s.root name) .badEntry) := by
  -- no other part of a scan gives the error of a link
  have hfirst {d d' : Disk} (hd : d.Named) (hd' : d'.Named) (heq : load d' s = load d s)
      {name : String} (hn : IsFirstUnfollowable d s.root name) :
      IsFirstUnfollowable d' s.root name := by
    have herror := heq.trans ((load_eq_badEntry_iff hs).2 ⟨name, hn, rfl⟩)
    obtain ⟨name', hn', hpath⟩ := (load_eq_badEntry_iff hs).1 herror
    obtain ⟨hne, hslash⟩ := hn.slash_notMem hd
    rwa [Disk.join_inj hne hslash hne (hn'.slash_notMem hd').2 hpath]
  refine ⟨⟨fun heq name => ⟨hfirst hd hd' heq, hfirst hd' hd heq.symm⟩, fun hiff => ?_⟩,
    fun hfollow => h.load_eq hs hd (fun name hn => (hfollow name hn).1)
      fun name hn => (hfollow name hn).2,
    fun name hn => (load_eq_badEntry_iff hs).2 ⟨name, hn, rfl⟩⟩
  by_cases hsome : ∃ name, IsFirstUnfollowable d s.root name
  · obtain ⟨name, hn⟩ := hsome
    rw [(load_eq_badEntry_iff hs).2 ⟨name, hn, rfl⟩,
      (load_eq_badEntry_iff hs).2 ⟨name, (hiff name).1 hn, rfl⟩]
  · refine h.load_eq hs hd (fun name _ hn => hsome hn.exists_first) fun name _ hn => ?_
    obtain ⟨first, hn'⟩ := hn.exists_first
    exact hsome ⟨first, (hiff first).2 hn'⟩

/-! ## One hidden entry more -/

/-- A hidden item put into the root of a disk without links leaves what is visible. -/
theorem agreeOnVisible_put (hr : d.resolve root = .arrived r)
    (hr' : (d.put (r ++ [name]) i).resolve root = .arrived r) (hhidden : isHidden name = true)
    (hlinks : d.NoLinks) :
    AgreeOnVisible d (d.put (r ++ [name]) i) root where
  resolve_eq := hr'.trans hr.symm
  lookup_eq := by
    intro r' h loc hout
    obtain rfl := Disk.Walk.arrived.inj (hr.symm.trans h)
    apply Disk.lookup_put_of_ne
    rintro rfl
    exact hout (isHiddenBelow_concat_iff.2 hhidden)
  link_eq := fun _ _ _ _ _ hlink => absurd hlink hlinks.lookup_ne_link

theorem not_unfollowable_of_noLinks (hlinks : d.NoLinks) : ¬ Unfollowable d root name := by
  rintro ⟨r, target, -, -, hlink, -⟩
  exact hlinks.lookup_ne_link hlink

def visibleDisk : Disk := Disk.empty.store "r/a/a-1.edges" (.text "p c\n")

theorem load_visibleDisk :
    load visibleDisk { root := "r" } = .ok ⟨"r", "edges", [⟨"a", [1], 1⟩]⟩ := by decide +kernel

theorem load_of_hidden_entries_directory :
    let d' := visibleDisk.put ["work", "r", ".git"] .directory
    visibleDisk.Named ∧ d'.Named ∧ AgreeOnVisible visibleDisk d' "r" ∧
      load d' { root := "r" } = .ok ⟨"r", "edges", [⟨"a", [1], 1⟩]⟩ := by
  intro d'
  have hlinks : visibleDisk.NoLinks := by decide +kernel
  have hlinks' : d'.NoLinks := by decide +kernel
  have hnamed : visibleDisk.Named := by decide +kernel
  have hnamed' : d'.Named := by decide +kernel
  have hagree : AgreeOnVisible visibleDisk d' "r" :=
    agreeOnVisible_put (r := ["work", "r"]) (by decide +kernel) (by decide +kernel) (by decide)
      hlinks
  obtain ⟨-, hsame, -⟩ := load_of_hidden_entries (s := { root := "r" }) rfl hnamed hnamed' hagree
  refine ⟨hnamed, hnamed', hagree, (hsame fun name _ => ?_).trans load_visibleDisk⟩
  exact ⟨not_unfollowable_of_noLinks hlinks, not_unfollowable_of_noLinks hlinks'⟩

/-- A hidden link that leads nowhere is the only difference between two disks, and one of them has
no catalog. -/
theorem load_of_dangling_hidden :
    let d' := visibleDisk.put ["work", "r", ".x"] (.link "nowhere")
    AgreeOnVisible visibleDisk d' "r" ∧ isHidden ".x" = true ∧
      load visibleDisk { root := "r" } = .ok ⟨"r", "edges", [⟨"a", [1], 1⟩]⟩ ∧
      load d' { root := "r" } = .error (.catalog "r/.x" .badEntry) := by
  intro d'
  have hr : d'.resolve "r" = .arrived ["work", "r"] := by decide +kernel
  have hsorted : sortByName (d'.entriesAt ["work", "r"]) = d'.entriesAt ["work", "r"] := by
    apply List.mergeSort_of_pairwise
    decide +kernel
  refine ⟨agreeOnVisible_put (r := ["work", "r"]) (by decide +kernel) hr (by decide)
    (by decide +kernel), by decide, load_visibleDisk, ?_⟩
  apply load_of_listing_error (by decide +kernel)
  rw [listing_of_eq_nil rfl, categoryDirectories_of_resolve hr, hsorted]
  decide +kernel

end TreeCorpus.Catalog
