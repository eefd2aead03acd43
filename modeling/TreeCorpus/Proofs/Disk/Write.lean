import TreeCorpus.Disk.Basic

/-!
# Writing a file

A file is written at the place that its path leads to: a file that is there, or a free name in a
directory. The way to that place passes directories and links only, which writing leaves as they
are, so the path leads to the file afterwards (`Sound.readContent_of_writeContent`). Whether a file
can be written does not depend on what is written (`Sound.exists_writeContent`).
-/

namespace TreeCorpus.Disk

variable {d d' : Disk} {loc target : Location} {path : String} {c c' : Content}
  {segs : List String}

/-! ## Sound disks -/

/-- Every item stands in a directory. -/
structure Sound (d : Disk) : Prop where
  items : ∀ e ∈ d.items, d.lookup e.1.dropLast = some .directory
  workDir : d.lookup d.workDir.dropLast = some .directory

theorem lookup_root (d : Disk) : d.lookup [] = some .directory := if_pos (Or.inl rfl)

theorem lookup_workDir (d : Disk) : d.lookup d.workDir = some .directory := if_pos (Or.inr rfl)

theorem Sound.parent (h : d.Sound) {i : Item} (hi : d.lookup loc = some i) :
    d.lookup loc.dropLast = some .directory := by
  unfold lookup at hi
  split at hi
  · rename_i hloc
    rcases hloc with rfl | rfl
    · exact d.lookup_root
    · exact h.workDir
  · obtain ⟨l₁, l₂, hl, -⟩ := List.lookup_eq_some_iff.1 hi
    exact h.items (loc, i) (by rw [hl]; simp)

theorem sound_empty : Disk.empty.Sound := ⟨fun _ he => absurd he List.not_mem_nil, by decide⟩

/-- An item that is put into a directory, and not in place of one, leaves the disk sound. -/
theorem Sound.put (h : d.Sound) (hdir : d.lookup loc.dropLast = some .directory)
    (hloc : d.lookup loc ≠ some .directory) (i : Item) : (d.put loc i).Sound := by
  have hkept {other : Location} (ho : d.lookup other = some .directory) :
      (d.put loc i).lookup other = some .directory := by
    have hne : other ≠ loc := by
      rintro rfl
      exact hloc ho
    rw [lookup_put_of_ne d i hne, ho]
  refine ⟨fun e he => ?_, hkept h.workDir⟩
  rcases List.mem_cons.1 he with rfl | he
  · exact hkept hdir
  · exact hkept (h.items e (List.mem_filter.1 he).1)

/-! ## Places of files -/

/-- The location holds a file or nothing. -/
def IsFree (d : Disk) (loc : Location) : Prop :=
  ∀ i, d.lookup loc = some i → ∃ c, i = .file c

theorem IsFree.lookup_put_self (h : d.IsFree loc) (i : Item) :
    (d.put loc i).lookup loc = some i := by
  have hroot (hr : loc = [] ∨ loc = d.workDir) : False := by
    obtain ⟨c, hc⟩ := h .directory (if_pos hr)
    exact absurd hc (by simp)
  exact Disk.lookup_put_self d i (fun h => hroot (Or.inl h)) fun h => hroot (Or.inr h)

/-- Where a walk leads, if a file can stand there. -/
def Walk.place? : Walk → Option Location
  | .arrived loc => some loc
  | .missing loc name [] => some (loc ++ [name])
  | _ => none

/-- What becomes of a walk when a file is put at a place: up to a link it stays, and it arrives at
the place if it led there. -/
def Walk.put? (target : Location) : Walk → Option Walk
  | .linked loc t rest => some (.linked loc t rest)
  | w => if w.place? = some target then some (.arrived target) else none

theorem Walk.put?_missing {name : String} {rest : List String} {w : Walk}
    (h : (Walk.missing loc name rest).put? target = some w) :
    rest = [] ∧ loc ++ [name] = target ∧ w = .arrived target := by
  unfold Walk.put? at h
  cases rest with
  | nil =>
    change (if (Walk.missing loc name []).place? = some target then _ else none) = some w at h
    by_cases hplace : (Walk.missing loc name []).place? = some target
    · rw [if_pos hplace] at h
      exact ⟨rfl, Option.some.inj hplace, (Option.some.inj h).symm⟩
    · rw [if_neg hplace] at h
      exact absurd h (by simp)
  | cons _ _ => exact absurd h (by simp [Walk.place?])

/-! ## Walks after writing -/

/-- Putting a file at a free place does to walks what `Walk.put?` says. -/
theorem walk_put (h : d.IsFree target) {w : Walk}
    (hw : (d.walk loc segs).put? target = some w) :
    (d.put target (.file c)).walk loc segs = w := by
  induction segs generalizing loc with
  | nil =>
    simp only [walk, Walk.put?, Walk.place?, Option.some.injEq] at hw ⊢
    split at hw
    · rename_i hloc
      rw [hloc]
      exact Option.some.inj hw
    · exact absurd hw (by simp)
  | cons name rest ih =>
    unfold walk at hw ⊢
    by_cases hdir : d.lookup loc = some .directory
    · have hne : loc ≠ target := by
        rintro rfl
        obtain ⟨c, hc⟩ := h _ hdir
        exact absurd hc (by simp)
      rw [lookup_put_of_ne d _ hne]
      simp only [hdir, ne_eq, not_true_eq_false, if_false] at hw ⊢
      by_cases hsame : name = "" ∨ name = "."
      · rw [if_pos hsame] at hw ⊢
        exact ih hw
      by_cases hup : name = ".."
      · rw [if_neg hsame, if_pos hup] at hw ⊢
        exact ih hw
      by_cases hlong : nameLimit < name.utf8ByteSize
      · rw [if_neg hsame, if_neg hup, if_pos hlong] at hw
        exact absurd hw (by simp [Walk.put?, Walk.place?])
      rw [if_neg hsame, if_neg hup, if_neg hlong] at hw ⊢
      by_cases htarget : loc ++ [name] = target
      · -- the place itself: nothing or a file was there, and now the new file is
        subst htarget
        rw [h.lookup_put_self]
        cases hi : d.lookup (loc ++ [name]) with
        | none =>
          rw [hi] at hw
          obtain ⟨rfl, -, rfl⟩ := Walk.put?_missing hw
          rfl
        | some i =>
          obtain ⟨c', rfl⟩ := h i hi
          rw [hi] at hw
          exact ih hw
      · rw [lookup_put_of_ne d _ htarget]
        cases hi : d.lookup (loc ++ [name]) with
        | none =>
          rw [hi] at hw
          exact absurd (Walk.put?_missing hw).2.1 htarget
        | some i =>
          rw [hi] at hw
          cases i with
          | file c' => exact ih hw
          | directory => exact ih hw
          | link t => exact Option.some.inj hw
    · rw [if_pos hdir] at hw
      exact absurd hw (by simp [Walk.put?, Walk.place?])

/-- The path of a walk that leads to a place leads there after a file is put at it. -/
theorem follow_put (h : d.IsFree target) (making : Bool) {budget : Nat}
    (hw : (d.follow true budget loc segs).place? = some target) :
    (d.put target (.file c)).follow making budget loc segs = .arrived target := by
  have hstop {w : Walk} (hlinked : ∀ l t rest, w ≠ .linked l t rest)
      (hplace : w.place? = some target) : w.put? target = some (.arrived target) := by
    cases w with
    | linked l t rest => exact absurd rfl (hlinked l t rest)
    | arrived l => exact if_pos hplace
    | missing l name rest => exact if_pos hplace
    | failed fault => exact absurd hplace (by simp [Walk.place?])
  induction budget generalizing loc segs with
  | zero =>
    unfold follow at hw ⊢
    split at hw
    · split at hw
      · exact absurd hw (by simp [Walk.place?])
      · exact absurd hw (by simp [Walk.place?])
    · rename_i hlinked
      rw [walk_put h (hstop hlinked hw)]
  | succ budget ih =>
    unfold follow at hw ⊢
    split at hw
    · rename_i l t rest hwalk
      split at hw
      · exact absurd hw (by simp [Walk.place?])
      · rename_i hslashes
        rw [Bool.true_and] at hslashes
        rw [walk_put h (by rw [hwalk]; rfl)]
        simp only [hslashes, Bool.and_false, Bool.false_eq_true, if_false]
        exact ih hw
    · rename_i hlinked
      rw [walk_put h (hstop hlinked hw)]

theorem resolveFor_put (h : d.IsFree target) (making : Bool)
    (hw : (d.resolveFor true path).place? = some target) :
    (d.put target (.file c)).resolveFor making path = .arrived target := by
  have hfailed (fault : DiskFault) : (Walk.failed fault).place? ≠ some target := by
    simp [Walk.place?]
  unfold resolveFor at *
  split at hw
  · exact absurd hw (hfailed _)
  rename_i hempty
  split at hw
  · exact absurd hw (hfailed _)
  rename_i hzero
  split at hw
  · exact absurd hw (hfailed _)
  rename_i hlong
  rw [if_neg hempty, if_neg hzero, if_neg hlong]
  exact follow_put h making hw

/-! ## The place of a path -/

/-- A walk arrives at a file or directory, stops at links in directories, and misses only what is
not there in a directory. -/
def Walk.Tells (d : Disk) : Walk → Prop
  | .arrived loc => ∃ i, d.lookup loc = some i ∧ ∀ t, i ≠ .link t
  | .missing loc name _ => d.lookup loc = some .directory ∧ d.lookup (loc ++ [name]) = none
  | .linked loc _ _ => d.lookup loc = some .directory
  | .failed _ => True

theorem Sound.tells_walk (h : d.Sound) (hloc : ∃ i, d.lookup loc = some i ∧ ∀ t, i ≠ .link t) :
    (d.walk loc segs).Tells d := by
  induction segs generalizing loc with
  | nil => exact hloc
  | cons name rest ih =>
    unfold walk
    by_cases hdir : d.lookup loc = some .directory
    · simp only [hdir, ne_eq, not_true_eq_false, if_false]
      have hup : ∃ i, d.lookup loc.dropLast = some i ∧ ∀ t, i ≠ .link t :=
        ⟨.directory, h.parent hdir, by simp⟩
      split
      · exact ih hloc
      split
      · exact ih hup
      split
      · trivial
      cases hi : d.lookup (loc ++ [name]) with
      | none => exact ⟨hdir, hi⟩
      | some i => cases i with
        | link t => exact hdir
        | file c => exact ih ⟨_, hi, by simp⟩
        | directory => exact ih ⟨_, hi, by simp⟩
    · rw [if_pos hdir]
      trivial

theorem Sound.tells_follow (h : d.Sound) {making : Bool} {budget : Nat}
    (hloc : d.lookup loc = some .directory) : (d.follow making budget loc segs).Tells d := by
  induction budget generalizing loc segs with
  | zero =>
    have hwalk : (d.walk loc segs).Tells d := h.tells_walk ⟨_, hloc, by simp⟩
    unfold follow
    split
    · split <;> trivial
    · exact hwalk
  | succ budget ih =>
    have hwalk : (d.walk loc segs).Tells d := h.tells_walk ⟨_, hloc, by simp⟩
    unfold follow
    split
    · rename_i l t rest hlinked
      rw [hlinked] at hwalk
      have hstart : d.lookup (if Path.isAbsolute t then [] else l) = some .directory := by
        split
        · exact d.lookup_root
        · exact hwalk
      split
      · trivial
      · exact ih hstart
    · exact hwalk

theorem Sound.tells_resolveFor (h : d.Sound) (making : Bool) (path : String) :
    (d.resolveFor making path).Tells d := by
  have hstart : d.lookup (d.startOf path) = some .directory := by
    unfold startOf
    split
    · exact d.lookup_root
    · exact d.lookup_workDir
  unfold resolveFor
  split
  · trivial
  split
  · trivial
  split
  · trivial
  exact h.tells_follow hstart

/-! ## Writing -/

/-- A file is written where its path leads, if a file can stand there. -/
theorem Sound.writeContent_eq_ok_iff (h : d.Sound) :
    d.writeContent path c = .ok d' ↔
      ∃ target, (d.resolveFor true path).place? = some target ∧ d.IsFree target ∧
        d' = d.put target (.file c) := by
  have htells := h.tells_resolveFor true path
  unfold writeContent
  cases hw : d.resolveFor true path with
  | arrived loc =>
    rw [hw] at htells
    simp only [Walk.place?, Option.some.injEq, exists_eq_left']
    split
    · rename_i hdir
      have hfree : ¬ d.IsFree loc := fun hf => by
        obtain ⟨c, hc⟩ := hf _ hdir
        exact absurd hc (by simp)
      simp [hfree]
    · rename_i hdir
      have hfree : d.IsFree loc := by
        intro i hi
        obtain ⟨j, hj, hlink⟩ := htells
        obtain rfl := Option.some.inj (hi.symm.trans hj)
        cases i with
        | file c => exact ⟨c, rfl⟩
        | directory => exact absurd hi hdir
        | link t => exact absurd rfl (hlink t)
      rw [Except.ok.injEq, eq_comm]
      exact (and_iff_right hfree).symm
  | missing loc name rest =>
    rw [hw] at htells
    have hfree : d.IsFree (loc ++ [name]) := by
      intro i hi
      rw [htells.2] at hi
      exact absurd hi (by simp)
    cases rest with
    | nil =>
      simp only [Walk.place?, Option.some.injEq, exists_eq_left']
      rw [Except.ok.injEq, eq_comm]
      exact (and_iff_right hfree).symm
    | cons _ _ => simp [Walk.place?]
  | linked loc t rest => simp [Walk.place?]
  | failed fault => simp [Walk.place?]

/-- Whether a file can be written does not depend on what is written. -/
theorem Sound.exists_writeContent (h : d.Sound) (hc : ∃ d', d.writeContent path c = .ok d')
    (c' : Content) :
    ∃ d', d.writeContent path c' = .ok d' := by
  obtain ⟨d', hd'⟩ := hc
  obtain ⟨target, hplace, hfree, -⟩ := h.writeContent_eq_ok_iff.1 hd'
  exact ⟨_, h.writeContent_eq_ok_iff.2 ⟨target, hplace, hfree, rfl⟩⟩

/-- The place where a file can stand is in a directory. -/
theorem Sound.parent_of_tells (h : d.Sound) {w : Walk} (hw : w.Tells d)
    (hplace : w.place? = some target) : d.lookup target.dropLast = some .directory := by
  cases w with
  | arrived l =>
    obtain ⟨i, hi, -⟩ := hw
    obtain rfl := Option.some.inj hplace
    exact h.parent hi
  | missing l name rest =>
    cases rest with
    | nil =>
      obtain rfl := Option.some.inj hplace
      rw [List.dropLast_concat]
      exact hw.1
    | cons _ _ => exact absurd hplace (by simp [Walk.place?])
  | linked l t rest => exact absurd hplace (by simp [Walk.place?])
  | failed fault => exact absurd hplace (by simp [Walk.place?])

/-- Writing a file leaves the disk sound. -/
theorem Sound.writeContent (h : d.Sound) (hw : d.writeContent path c = .ok d') : d'.Sound := by
  obtain ⟨target, hplace, hfree, rfl⟩ := h.writeContent_eq_ok_iff.1 hw
  refine h.put (h.parent_of_tells (h.tells_resolveFor true path) hplace) (fun hdir => ?_) _
  obtain ⟨c, hc⟩ := hfree _ hdir
  exact absurd hc (by simp)

/-- What was written is read. -/
theorem Sound.readContent_of_writeContent (h : d.Sound) (hw : d.writeContent path c = .ok d') :
    d'.readContent path = .ok c := by
  obtain ⟨target, hplace, hfree, rfl⟩ := h.writeContent_eq_ok_iff.1 hw
  unfold readContent item? resolve
  rw [resolveFor_put hfree false hplace]
  simp only [hfree.lookup_put_self]

/-- Where a file was written, another can be. -/
theorem Sound.exists_writeContent_again (h : d.Sound) (hw : d.writeContent path c = .ok d')
    (c' : Content) : ∃ e, d'.writeContent path c' = .ok e := by
  have hsound := h.writeContent hw
  obtain ⟨target, hplace, hfree, rfl⟩ := h.writeContent_eq_ok_iff.1 hw
  refine ⟨_, hsound.writeContent_eq_ok_iff.2 ⟨target, ?_, fun i hi => ?_, rfl⟩⟩
  · rw [resolveFor_put hfree true hplace]
    rfl
  · rw [hfree.lookup_put_self] at hi
    exact ⟨c, (Option.some.inj hi).symm⟩

end TreeCorpus.Disk
