import Mathlib.Data.List.Nodup
import TreeCorpus.Disk.Basic

/-!
# The entries of a directory

Listing a directory gives each name once (`nodup_entriesAt`), and with it the item that stands at
the location of that name (`mem_entriesAt_iff`). The listing of one directory on two disks is the
same up to order if nothing in it differs (`SameDirectory.perm_entries`); on disks that hold the
same items, stored in whatever order, that is so of every path (`SameTree.sameDirectory`).
-/

namespace TreeCorpus

theorem nodup_eraseDups {α : Type} [BEq α] [LawfulBEq α] : ∀ l : List α, l.eraseDups.Nodup
  | [] => List.nodup_nil
  | a :: as => by
    rw [List.eraseDups_cons, List.nodup_cons]
    constructor
    · intro ha
      have hkept := (List.mem_filter.1 (List.mem_eraseDups.1 ha)).2
      simp at hkept
    · exact nodup_eraseDups _
termination_by l => l.length
decreasing_by exact Nat.lt_succ_of_le (List.length_filter_le ..)

/-- What is kept of some items, with the keys they had, has keys among theirs in the same order. -/
theorem sublist_map_filterMap {α β γ : Type} {f : α → Option β} (key : α → γ) (key' : β → γ)
    (h : ∀ a b, f a = some b → key' b = key a) (l : List α) :
    ((l.filterMap f).map key').Sublist (l.map key) := by
  induction l with
  | nil => exact .slnil
  | cons a l ih =>
    rw [List.filterMap_cons]
    cases hf : f a with
    | none => exact ih.cons (key a)
    | some b =>
      rw [List.map_cons, List.map_cons, h a b hf]
      exact ih.cons_cons (key a)

namespace Disk

variable {d : Disk} {loc : Location} {name : String} {i : Item}

/-- No two entries of a directory share a name. -/
theorem nodup_entriesAt (d : Disk) (loc : Location) :
    ((d.entriesAt loc).map Prod.fst).Nodup := by
  refine (sublist_map_filterMap id Prod.fst (fun n e he => ?_) _).nodup ?_
  · obtain ⟨i, -, rfl⟩ := Option.map_eq_some_iff.1 he
    rfl
  · rw [List.map_id]
    exact nodup_eraseDups _

/-- No two entries in the directory of a path share a name. -/
theorem nodup_entries (d : Disk) (path : String) : ((d.entries path).map Prod.fst).Nodup := by
  unfold entries
  split
  · exact nodup_entriesAt d _
  · exact List.nodup_nil

theorem mem_map_fst_items {i : Item} (h : d.items.lookup loc = some i) :
    loc ∈ d.items.map Prod.fst := by
  obtain ⟨l₁, l₂, hl, -⟩ := List.lookup_eq_some_iff.1 h
  rw [hl]
  simp

/-- No item of the disk is a link. -/
def NoLinks (d : Disk) : Prop := ∀ e ∈ d.items, ∀ target, e.2 ≠ .link target

instance (i : Item) : Decidable (∀ target, i ≠ .link target) :=
  match i with
  | .file _ => isTrue (by simp)
  | .directory => isTrue (by simp)
  | .link target => isFalse fun h => h target rfl

instance (d : Disk) : Decidable d.NoLinks :=
  inferInstanceAs (Decidable (∀ e ∈ d.items, ∀ target, e.2 ≠ .link target))

theorem NoLinks.lookup_ne_link (h : d.NoLinks) {target : String} :
    d.lookup loc ≠ some (.link target) := by
  intro hi
  unfold lookup at hi
  split at hi
  · exact absurd hi (by simp)
  · obtain ⟨l₁, l₂, hl, -⟩ := List.lookup_eq_some_iff.1 hi
    exact h (loc, .link target) (by rw [hl]; simp) target rfl

/-- The entries are the items at the locations of their names. -/
theorem mem_entriesAt_iff : (name, i) ∈ d.entriesAt loc ↔ d.lookup (loc ++ [name]) = some i := by
  unfold entriesAt
  simp only [List.mem_filterMap, List.mem_eraseDups, Option.map_eq_some_iff]
  constructor
  · rintro ⟨n, -, j, hj, he⟩
    obtain ⟨rfl, rfl⟩ := Prod.mk.inj he
    exact hj
  · intro h
    refine ⟨name, ?_, i, h, rfl⟩
    by_cases hdir : loc ++ [name] = [] ∨ loc ++ [name] = d.workDir
    · have hwork : loc ++ [name] = d.workDir := hdir.resolve_left (by simp)
      rw [← hwork]
      simp
    · have hitem : d.items.lookup (loc ++ [name]) = some i := by
        unfold lookup at h
        rwa [if_neg hdir] at h
      obtain ⟨e, he, hloc⟩ := List.mem_map.1 (mem_map_fst_items hitem)
      have hname : name ∈ d.items.filterMap fun e =>
          if e.1.dropLast = loc then e.1.getLast? else none :=
        List.mem_filterMap.2 ⟨e, he, by simp [hloc]⟩
      split
      · exact List.mem_append_left _ hname
      · exact hname

/-- A path has entries if it leads to a location. -/
theorem mem_entries_iff {path : String} :
    (name, i) ∈ d.entries path ↔
      ∃ loc, d.resolve path = .arrived loc ∧ d.lookup (loc ++ [name]) = some i := by
  simp only [← mem_entriesAt_iff]
  unfold entries
  cases d.resolve path with
  | arrived loc => simp
  | _ => simp

theorem mem_entries_iff_of_resolve {path : String} (hr : d.resolve path = .arrived loc) :
    (name, i) ∈ d.entries path ↔ d.lookup (loc ++ [name]) = some i := by
  rw [mem_entries_iff, hr]
  simp

/-! ## One directory on two disks -/

/-- The path leads to the same place on both disks, and if something is there it is the same, with
the same entries. -/
structure SameDirectory (d d' : Disk) (path : String) : Prop where
  resolve_eq : d'.resolve path = d.resolve path
  lookup_eq : ∀ loc, d.resolve path = .arrived loc → d'.lookup loc = d.lookup loc
  entry_eq : ∀ loc name, d.resolve path = .arrived loc →
    d'.lookup (loc ++ [name]) = d.lookup (loc ++ [name])

variable {d' : Disk} {path : String}

theorem isDirectory_congr (hr : d'.resolve path = d.resolve path)
    (hl : ∀ loc, d.resolve path = .arrived loc → d'.lookup loc = d.lookup loc) :
    d'.isDirectory path = d.isDirectory path := by
  unfold isDirectory item?
  rw [hr]
  cases hw : d.resolve path with
  | arrived loc => simp only [hl loc hw]
  | _ => rfl

theorem SameDirectory.perm_entries (h : SameDirectory d d' path) :
    (d'.entries path).Perm (d.entries path) := by
  unfold entries
  rw [h.resolve_eq]
  cases hw : d.resolve path with
  | arrived loc =>
    rw [List.perm_ext_iff_of_nodup (List.Nodup.of_map _ (nodup_entriesAt d' loc))
      (List.Nodup.of_map _ (nodup_entriesAt d loc))]
    rintro ⟨name, i⟩
    rw [mem_entriesAt_iff, mem_entriesAt_iff, h.entry_eq loc name hw]
  | _ => exact List.Perm.refl _

/-! ## One tree on two disks -/

/-- Both disks have the same item at every location. They may store and list them in different
orders. -/
structure SameTree (d d' : Disk) : Prop where
  workDir_eq : d'.workDir = d.workDir
  lookup_eq : ∀ loc, d'.lookup loc = d.lookup loc

namespace SameTree

variable (h : SameTree d d')

include h

theorem walk_eq (loc : Location) (segs : List String) : d'.walk loc segs = d.walk loc segs := by
  induction segs generalizing loc with
  | nil => rfl
  | cons name rest ih =>
    rw [walk.eq_2, walk.eq_2, ih loc, ih loc.dropLast, ih (loc ++ [name]), h.lookup_eq, h.lookup_eq]

theorem follow_eq (making : Bool) (budget : Nat) (loc : Location) (segs : List String) :
    d'.follow making budget loc segs = d.follow making budget loc segs := by
  induction budget generalizing loc segs with
  | zero => rw [follow.eq_def, follow.eq_def, h.walk_eq]
  | succ budget ih =>
    rw [follow.eq_def, follow.eq_def, h.walk_eq]
    cases d.walk loc segs with
    | linked l target rest => simp only [ih]
    | _ => rfl

theorem resolve_eq (path : String) : d'.resolve path = d.resolve path := by
  unfold resolve resolveFor startOf
  rw [h.follow_eq, h.workDir_eq]

theorem sameDirectory (path : String) : SameDirectory d d' path :=
  ⟨h.resolve_eq path, fun loc _ => h.lookup_eq loc, fun loc name _ => h.lookup_eq (loc ++ [name])⟩

end SameTree

/-- Under distinct keys every pair is found. -/
theorem lookup_eq_some_iff_mem {items : List (Location × Item)} (hn : (items.map Prod.fst).Nodup) :
    items.lookup loc = some i ↔ (loc, i) ∈ items := by
  rw [List.lookup_eq_some_iff]
  constructor
  · rintro ⟨before, after, rfl, -⟩
    simp
  · intro hi
    obtain ⟨before, after, rfl⟩ := List.append_of_mem hi
    refine ⟨before, after, rfl, fun e he => ?_⟩
    rw [List.map_append, List.map_cons, List.nodup_append] at hn
    have hne := hn.2.2 e.1 (List.mem_map_of_mem he) loc List.mem_cons_self
    simpa using hne.symm

/-- Items with distinct locations make the same tree in whatever order they are stored. -/
theorem sameTree_of_perm {items : List (Location × Item)} (hn : (d.items.map Prod.fst).Nodup)
    (hp : items.Perm d.items) : SameTree d ⟨items, d.workDir⟩ := by
  have hlookup (loc : Location) : items.lookup loc = d.items.lookup loc := by
    apply Option.ext
    intro i
    rw [lookup_eq_some_iff_mem hn, lookup_eq_some_iff_mem ((hp.map Prod.fst).nodup_iff.2 hn),
      hp.mem_iff]
  refine ⟨rfl, fun loc => ?_⟩
  unfold lookup
  rw [hlookup]

end Disk

end TreeCorpus
