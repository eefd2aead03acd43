import TreeCorpus.Proofs.Disk.Entries
import TreeCorpus.Proofs.Text.Lines

/-!
# Files below a directory

The path of a directory with the name of a file joined to it leads to that file, on a disk whose
entries have names as directories give them and if the path is not too long (`resolve_join`). A walk
along more segments goes on where the walk along the first of them arrived (`walk_append`,
`follow_append`), whatever links are on the way.
-/

namespace TreeCorpus.Disk

variable {d : Disk} {loc : Location} {dir name : String} {segs tail : List String}

/-! ## Names of entries -/

/-- A name that an entry of a directory can have. -/
structure IsName (name : String) : Prop where
  ne_empty : name ≠ ""
  ne_self : name ≠ "."
  ne_parent : name ≠ ".."
  slash_notMem : '/' ∉ name.toList
  zero_notMem : '\x00' ∉ name.toList
  size_le : name.utf8ByteSize ≤ nameLimit

instance : DecidablePred IsName := fun name =>
  decidable_of_iff (name ≠ "" ∧ name ≠ "." ∧ name ≠ ".." ∧ '/' ∉ name.toList ∧
      '\x00' ∉ name.toList ∧ name.utf8ByteSize ≤ nameLimit)
    ⟨fun ⟨h₁, h₂, h₃, h₄, h₅, h₆⟩ => ⟨h₁, h₂, h₃, h₄, h₅, h₆⟩,
      fun h => ⟨h.1, h.2, h.3, h.4, h.5, h.6⟩⟩

/-- All names on the disk are names that entries can have. -/
structure Named (d : Disk) : Prop where
  items : ∀ e ∈ d.items, ∀ name ∈ e.1, IsName name
  workDir : ∀ name ∈ d.workDir, IsName name

instance (d : Disk) : Decidable d.Named :=
  decidable_of_iff ((∀ e ∈ d.items, ∀ name ∈ e.1, IsName name) ∧ ∀ name ∈ d.workDir, IsName name)
    ⟨fun ⟨h₁, h₂⟩ => ⟨h₁, h₂⟩, fun h => ⟨h.1, h.2⟩⟩

theorem Named.isName (h : d.Named) {i : Item} (hi : d.lookup (loc ++ [name]) = some i) :
    IsName name := by
  have hname : name ∈ loc ++ [name] := List.mem_append_right loc List.mem_cons_self
  unfold lookup at hi
  split at hi
  · rename_i hdir
    rcases hdir with hnil | hwork
    · exact absurd hnil (by simp)
    · exact h.workDir name (hwork ▸ hname)
  · obtain ⟨e, he, hloc⟩ := List.mem_map.1 (mem_map_fst_items hi)
    exact h.items e he name (hloc ▸ hname)

theorem Named.isName_of_mem_entries (h : d.Named) {i : Item} (hi : (name, i) ∈ d.entries dir) :
    IsName name := by
  obtain ⟨loc, -, hlookup⟩ := mem_entries_iff.1 hi
  exact h.isName hlookup

/-! ## Walking on -/

/-- The walk that goes on along more segments from where a walk arrived. -/
def Walk.andThen (w : Walk) (tail : List String) (next : Location → Walk) : Walk :=
  match w with
  | arrived loc => next loc
  | missing loc name rest => missing loc name (rest ++ tail)
  | linked loc target rest => linked loc target (rest ++ tail)
  | failed fault => failed fault

theorem walk_append (d : Disk) (loc : Location) (segs tail : List String) :
    d.walk loc (segs ++ tail) = (d.walk loc segs).andThen tail (d.walk · tail) := by
  induction segs generalizing loc with
  | nil => rfl
  | cons name rest ih =>
    rw [List.cons_append, walk.eq_2, walk.eq_2 d loc name rest]
    by_cases hdir : d.lookup loc = some .directory
    · simp only [hdir, ne_eq, not_true_eq_false, if_false]
      split
      · exact ih loc
      split
      · exact ih loc.dropLast
      split
      · rfl
      cases hi : d.lookup (loc ++ [name]) with
      | none => rfl
      | some i => cases i with
        | link target => rfl
        | file c => exact ih (loc ++ [name])
        | directory => exact ih (loc ++ [name])
    · rw [if_pos hdir, if_pos hdir]
      rfl

/-- A walk that stops at no link is not followed any further. -/
theorem follow_of_walk {w : Walk} (hw : d.walk loc segs = w) (hlinked : ∀ l t r, w ≠ .linked l t r)
    (budget : Nat) : d.follow false budget loc segs = w := by
  unfold follow
  split
  · rename_i l t r hl
    exact absurd (hw.symm.trans hl) (hlinked l t r)
  · exact hw

/-- A walk that stops at a link goes on at its target. -/
theorem follow_of_linked {l : Location} {t : String} {r : List String}
    (hw : d.walk loc segs = .linked l t r) (budget : Nat) :
    d.follow false (budget + 1) loc segs =
      d.follow false budget (if Path.isAbsolute t then [] else l) (segmentNames t ++ r) := by
  rw [follow.eq_def, hw]
  rfl

/-- Only the walk decides what is followed. -/
theorem follow_congr {loc' : Location} {segs' : List String}
    (h : d.walk loc segs = d.walk loc' segs') (budget : Nat) :
    d.follow false budget loc segs = d.follow false budget loc' segs' := by
  cases budget <;> (unfold follow; rw [h])

/-- Where the walk along the first segments stops at no link, the rest is followed from there, with
the links that are left. -/
theorem follow_append_of_walk {w : Walk} (hw : d.walk loc segs = w)
    (hlinked : ∀ l t r, w ≠ .linked l t r) (budget : Nat) (tail : List String) :
    d.follow false budget loc (segs ++ tail) = w.andThen tail (d.follow false budget · tail) := by
  have happend := walk_append d loc segs tail
  rw [hw] at happend
  cases w with
  | arrived l => exact follow_congr happend budget
  | missing l n r => exact follow_of_walk happend (by simp [Walk.andThen]) budget
  | failed fault => exact follow_of_walk happend (by simp [Walk.andThen]) budget
  | linked l t r => exact absurd rfl (hlinked l t r)

/-- Following the first segments and then the rest comes to the same end, with fewer links left for
the rest. -/
theorem follow_append (d : Disk) (budget : Nat) (loc : Location) (segs tail : List String) :
    ∃ left, d.follow false budget loc (segs ++ tail) =
      (d.follow false budget loc segs).andThen tail (d.follow false left · tail) := by
  induction budget generalizing loc segs with
  | zero =>
    refine ⟨0, ?_⟩
    have happend := walk_append d loc segs tail
    cases hw : d.walk loc segs with
    | linked l t r =>
      rw [hw] at happend
      rw [follow.eq_def, happend, follow.eq_def, hw]
      rfl
    | _ => rw [follow_append_of_walk hw (by simp), follow_of_walk hw (by simp)]
  | succ budget ih =>
    have happend := walk_append d loc segs tail
    cases hw : d.walk loc segs with
    | linked l t r =>
      rw [hw] at happend
      obtain ⟨left, hleft⟩ := ih (if Path.isAbsolute t then [] else l) (segmentNames t ++ r)
      refine ⟨left, ?_⟩
      rw [follow_of_linked happend, follow_of_linked hw, ← List.append_assoc]
      exact hleft
    | _ =>
      refine ⟨budget + 1, ?_⟩
      rw [follow_append_of_walk hw (by simp), follow_of_walk hw (by simp)]

/-! ## What a path leads to -/

section Resolved

variable {path : String}

/-- A path leads somewhere if it is none that no disk resolves and its segments lead there. -/
theorem resolve_eq_arrived_iff :
    d.resolve path = .arrived loc ↔
      path ≠ "" ∧ '\x00' ∉ path.toList ∧ path.utf8ByteSize < pathLimit ∧
        d.follow false linkLimit (d.startOf path) (segmentNames path) = .arrived loc := by
  unfold resolve resolveFor
  by_cases hempty : path = ""
  · simp [hempty]
  by_cases hzero : '\x00' ∈ path.toList
  · simp [hempty, hzero]
  by_cases hsize : pathLimit ≤ path.utf8ByteSize
  · simp [hempty, hzero, hsize, Nat.not_lt.2 hsize]
  · simp [hempty, hzero, hsize, Nat.not_le.1 hsize]

theorem ne_empty_of_resolve (h : d.resolve path = .arrived loc) : path ≠ "" :=
  (resolve_eq_arrived_iff.1 h).1

theorem item?_eq_ok_iff {i : Item} :
    d.item? path = .ok i ↔ ∃ loc, d.resolve path = .arrived loc ∧ d.lookup loc = some i := by
  unfold item?
  cases d.resolve path with
  | arrived loc =>
    cases hi : d.lookup loc with
    | none => simp [hi]
    | some j => simp [hi]
  | _ => simp

theorem isDirectory_iff :
    d.isDirectory path = true ↔
      ∃ loc, d.resolve path = .arrived loc ∧ d.lookup loc = some .directory := by
  rw [← item?_eq_ok_iff]
  unfold isDirectory
  cases d.item? path with
  | error fault => simp
  | ok i => cases i <;> simp

theorem isFile_iff :
    d.isFile path = true ↔
      ∃ content loc, d.resolve path = .arrived loc ∧ d.lookup loc = some (.file content) := by
  simp only [← item?_eq_ok_iff]
  unfold isFile
  cases d.item? path with
  | error fault => simp
  | ok i => cases i <;> simp

end Resolved

/-! ## Joined paths -/

theorem isAbsolute_eq_false (hslash : '/' ∉ name.toList) : Path.isAbsolute name = false := by
  unfold Path.isAbsolute
  rw [beq_eq_false_iff_ne]
  intro hhead
  exact hslash (List.mem_of_mem_head? hhead)

theorem segmentNames_of_notMem (hslash : '/' ∉ name.toList) : segmentNames name = [name] := by
  have hkeep : ∀ c ∈ name.toList, (c == '/') = false := by
    intro c hc
    rw [beq_eq_false_iff_ne]
    rintro rfl
    exact hslash hc
  unfold segmentNames Path.segments
  rw [Text.pieces_of_not_separates hkeep, List.map_singleton, String.ofList_toList]

/-- A joined path is the directory, without a slash at its end, then a slash and the name. -/
theorem toList_join (hdir : dir ≠ "") (hslash : '/' ∉ name.toList) :
    ∃ cs, (Path.join dir name).toList = cs ++ '/' :: name.toList ∧
      (dir.toList = cs ∨ dir.toList = cs ++ ['/']) := by
  have hempty : dir.isEmpty = false := by simpa using hdir
  unfold Path.join
  rw [isAbsolute_eq_false hslash, hempty, if_neg Bool.false_ne_true, Bool.false_or]
  by_cases hlast : dir.toList.getLast? = some '/'
  · obtain ⟨cs, hcs⟩ := List.getLast?_eq_some_iff.1 hlast
    refine ⟨cs, ?_, Or.inr hcs⟩
    rw [if_pos (by simp [hlast]), String.toList_append, hcs, List.append_assoc,
      List.singleton_append]
  · refine ⟨dir.toList, ?_, Or.inl rfl⟩
    rw [if_neg (by simpa using hlast), String.toList_append, String.toList_append,
      List.append_assoc]
    rfl

/-- The segments of a directory and then the name, without the empty segment after a slash at the
end of the directory. -/
theorem segmentNames_join (hdir : dir ≠ "") (hslash : '/' ∉ name.toList) :
    ∃ above, segmentNames (Path.join dir name) = above ++ [name] ∧
      (segmentNames dir = above ∨ segmentNames dir = above ++ [""]) := by
  obtain ⟨cs, hjoin, hcs⟩ := toList_join hdir hslash
  have hsingle := segmentNames_of_notMem hslash
  unfold segmentNames Path.segments at hsingle ⊢
  refine ⟨(Text.pieces (· == '/') cs).map String.ofList, ?_, ?_⟩
  · rw [hjoin, Text.pieces_append_cons rfl, List.map_append, hsingle]
  · rcases hcs with hcs | hcs
    · exact Or.inl (by rw [hcs])
    · rw [hcs, Text.pieces_append_cons rfl, List.map_append]
      exact Or.inr rfl

theorem startOf_join (d : Disk) (hdir : dir ≠ "") (hslash : '/' ∉ name.toList) :
    d.startOf (Path.join dir name) = d.startOf dir := by
  obtain ⟨cs, hjoin, hcs⟩ := toList_join hdir hslash
  have hhead : (cs ++ '/' :: name.toList).head? = dir.toList.head? := by
    rcases hcs with hcs | hcs
    · obtain ⟨c, rest, hcons⟩ := List.exists_cons_of_ne_nil (mt String.toList_eq_nil_iff.1 hdir)
      rw [← hcs, hcons]
      rfl
    · rw [hcs]
      cases cs <;> rfl
  unfold startOf Path.isAbsolute
  rw [hjoin, hhead]

/-- Joined paths that are the same end with the same name. -/
theorem join_inj {dir' name' : String} (hdir : dir ≠ "") (hslash : '/' ∉ name.toList)
    (hdir' : dir' ≠ "") (hslash' : '/' ∉ name'.toList)
    (h : Path.join dir name = Path.join dir' name') : name = name' := by
  obtain ⟨above, habove, -⟩ := segmentNames_join hdir hslash
  obtain ⟨above', habove', -⟩ := segmentNames_join hdir' hslash'
  rw [h, habove'] at habove
  exact (List.append_singleton_inj.1 habove).2.symm

/-- An entry of a directory that is no link is where its name leads from there. -/
theorem follow_entry {i : Item} (hloc : d.lookup loc = some .directory) (hname : IsName name)
    (hi : d.lookup (loc ++ [name]) = some i) (hlink : ∀ target, i ≠ .link target) (budget : Nat) :
    d.follow false budget loc [name] = .arrived (loc ++ [name]) := by
  apply follow_of_walk _ (by simp)
  rw [walk.eq_2, if_neg (by simp [hloc]), if_neg (by simp [hname.ne_empty, hname.ne_self]),
    if_neg hname.ne_parent, if_neg (Nat.not_lt.2 hname.size_le), hi]
  cases i with
  | link target => exact absurd rfl (hlink target)
  | file content => rfl
  | directory => rfl

/-- A way that ends with an empty segment ends where it does without that segment. -/
theorem follow_of_append_empty {budget : Nat} {end' : Location}
    (h : d.follow false budget loc (segs ++ [""]) = .arrived end') :
    d.follow false budget loc segs = .arrived end' := by
  obtain ⟨left, hleft⟩ := follow_append d budget loc segs [""]
  rw [h] at hleft
  cases hw : d.follow false budget loc segs with
  | arrived l =>
    rw [hw] at hleft
    by_cases hl : d.lookup l = some .directory
    · have hwalk : d.walk l [""] = .arrived l := by
        rw [walk.eq_2, if_neg (by simp [hl]), if_pos (Or.inl rfl)]
        rfl
      exact ((follow_of_walk hwalk (by simp) left).symm.trans hleft.symm)
    · have hwalk : d.walk l [""] = .failed .notADirectory := by
        rw [walk.eq_2, if_pos hl]
      exact absurd (hleft.trans (follow_of_walk hwalk (by simp) left)) (by simp)
  | _ =>
    rw [hw] at hleft
    exact absurd hleft (by simp [Walk.andThen])

/-- The way along a joined path goes on from the directory, with the links that are left. -/
theorem follow_join (hdir : d.resolve dir = .arrived loc) (hslash : '/' ∉ name.toList) :
    ∃ left, d.follow false linkLimit (d.startOf (Path.join dir name))
      (segmentNames (Path.join dir name)) = d.follow false left loc [name] := by
  obtain ⟨hne, -, -, hway⟩ := resolve_eq_arrived_iff.1 hdir
  obtain ⟨above, hjoin, hsegs⟩ := segmentNames_join hne hslash
  have habove : d.follow false linkLimit (d.startOf dir) above = .arrived loc := by
    rcases hsegs with h | h
    · rw [← h]
      exact hway
    · rw [h] at hway
      exact follow_of_append_empty hway
  obtain ⟨left, hleft⟩ := follow_append d linkLimit (d.startOf dir) above [name]
  refine ⟨left, ?_⟩
  rw [startOf_join d hne hslash, hjoin, hleft, habove]
  rfl

/-- An entry of a directory that is no link is where the joined path leads, if the path is not too
long. -/
theorem resolve_join {i : Item} (hdir : d.resolve dir = .arrived loc)
    (hloc : d.lookup loc = some .directory) (hname : IsName name)
    (hi : d.lookup (loc ++ [name]) = some i) (hlink : ∀ target, i ≠ .link target)
    (hsize : (Path.join dir name).utf8ByteSize < pathLimit) :
    d.resolve (Path.join dir name) = .arrived (loc ++ [name]) := by
  obtain ⟨hne, hdirnul, -, -⟩ := resolve_eq_arrived_iff.1 hdir
  obtain ⟨cs, hlist, hcs⟩ := toList_join hne hname.slash_notMem
  obtain ⟨left, hleft⟩ := follow_join hdir hname.slash_notMem
  refine resolve_eq_arrived_iff.2
    ⟨?_, ?_, hsize, hleft.trans (follow_entry hloc hname hi hlink left)⟩
  · rw [ne_eq, ← String.toList_eq_nil_iff, hlist]
    simp
  · rw [hlist, List.mem_append, List.mem_cons]
    rintro (h | h | h)
    · rcases hcs with hcs | hcs
      · exact hdirnul (hcs ▸ h)
      · exact hdirnul (hcs ▸ List.mem_append_left _ h)
    · exact absurd h (by decide)
    · exact hname.zero_notMem h

/-- One step leads to the entry of that name or nowhere, unless the entry is a link. -/
theorem walk_entry_or (hempty : name ≠ "") (hself : name ≠ ".") (hparent : name ≠ "..")
    (hlink : ∀ target, d.lookup (loc ++ [name]) ≠ some (.link target)) :
    d.walk loc [name] = .arrived (loc ++ [name]) ∨ d.walk loc [name] = .missing loc name [] ∨
      ∃ fault, d.walk loc [name] = .failed fault := by
  rw [walk.eq_2]
  by_cases hloc : d.lookup loc = some .directory
  · rw [if_neg (by simp [hloc]), if_neg (by simp [hempty, hself]), if_neg hparent]
    split
    · exact Or.inr (Or.inr ⟨_, rfl⟩)
    cases hi : d.lookup (loc ++ [name]) with
    | none => exact Or.inr (Or.inl rfl)
    | some i => cases i with
      | link target => exact absurd hi (hlink target)
      | file content => exact Or.inl rfl
      | directory => exact Or.inl rfl
  · rw [if_pos hloc]
    exact Or.inr (Or.inr ⟨_, rfl⟩)

/-- A joined path that leads somewhere leads to the entry of that name, unless that is a link. -/
theorem eq_of_resolve_join {end' : Location} (hdir : d.resolve dir = .arrived loc)
    (hslash : '/' ∉ name.toList) (hempty : name ≠ "") (hself : name ≠ ".") (hparent : name ≠ "..")
    (hlink : ∀ target, d.lookup (loc ++ [name]) ≠ some (.link target))
    (h : d.resolve (Path.join dir name) = .arrived end') : end' = loc ++ [name] := by
  obtain ⟨left, hleft⟩ := follow_join hdir hslash
  obtain ⟨-, -, -, hend⟩ := resolve_eq_arrived_iff.1 h
  have hway := hleft.symm.trans hend
  rcases walk_entry_or hempty hself hparent hlink with hwalk | hwalk | ⟨fault, hwalk⟩
  · exact Walk.arrived.inj (hway.symm.trans (follow_of_walk hwalk (by simp) left))
  · exact nomatch (follow_of_walk hwalk (by simp) left).symm.trans hway
  · exact nomatch (follow_of_walk hwalk (by simp) left).symm.trans hway

/-- No disk resolves a path that is too long. -/
theorem resolve_of_le {path : String} (h : pathLimit ≤ path.utf8ByteSize) :
    ∃ fault, ∀ d : Disk, d.resolve path = .failed fault := by
  by_cases hempty : path.isEmpty = true
  · exact ⟨_, fun d => if_pos hempty⟩
  by_cases hzero : path.toList.contains '\x00' = true
  · exact ⟨_, fun d => (if_neg hempty).trans (if_pos hzero)⟩
  · exact ⟨_, fun d => (if_neg hempty).trans ((if_neg hzero).trans (if_pos h))⟩

end TreeCorpus.Disk
