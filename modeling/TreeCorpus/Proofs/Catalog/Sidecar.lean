import TreeCorpus.Disk.Edit
import TreeCorpus.Proofs.Catalog.FileName
import TreeCorpus.Proofs.Disk.Below
import TreeCorpus.Proofs.Settings.InRange

/-!
# Tables beside solutions

The table of a solution has the path of its edge list with the extension replaced. Only what follows
the last point of a file name counts as its extension (`Path.withExtension_join`), while the edge
list is named with the whole extension of the settings. So the table has the name that is made from
its own extension exactly when the extension of the edge lists holds no point, and it is the edge
list itself when that extension ends with a point and the extension of the tables, which the
settings allow (`sidecar_exact`, `sidecar_of_dotted_extension`).
-/

namespace TreeCorpus

namespace Path

variable {dir name ext path : String} {front last cs : List Char} {before : List (List Char)}

/-! ## Joined paths -/

/-- The directory with the slash that a name is put after. -/
def slashed (dir : String) : String := join dir ""

theorem join_eq_append (hslash : '/' ∉ name.toList) : join dir name = slashed dir ++ name := by
  unfold slashed join
  rw [Disk.isAbsolute_eq_false hslash, Disk.isAbsolute_eq_false (by simp),
    if_neg Bool.false_ne_true, if_neg Bool.false_ne_true]
  split
  · rw [String.append_empty]
  · rw [String.append_empty]

theorem slashed_eq (dir : String) :
    slashed dir = "" ∨ ∃ cs, (slashed dir).toList = cs ++ ['/'] := by
  by_cases hdir : dir = ""
  · exact Or.inl (by rw [hdir]; rfl)
  · obtain ⟨cs, hcs, -⟩ := Disk.toList_join hdir (by simp : '/' ∉ "".toList)
    exact Or.inr ⟨cs, hcs⟩

theorem segments_of_notMem (hslash : '/' ∉ name.toList) : segments name = [name.toList] := by
  refine Text.pieces_of_not_separates fun c hc => ?_
  rw [beq_eq_false_iff_ne]
  rintro rfl
  exact hslash hc

/-- The segments of a joined path, of which another name can take the place of the last. -/
theorem segments_join (dir : String) (hslash : '/' ∉ name.toList) :
    ∃ before, segments (join dir name) = before ++ [name.toList] ∧
      ∀ cs, ofSegments (before ++ [cs]) = slashed dir ++ String.ofList cs := by
  rcases slashed_eq dir with h | ⟨above, h⟩
  · refine ⟨[], ?_, fun cs => ?_⟩
    · rw [join_eq_append hslash, h, String.empty_append, segments_of_notMem hslash, List.nil_append]
    · rw [h, String.empty_append]
      exact String.intercalate_singleton
  · refine ⟨Text.pieces (· == '/') above, ?_, fun cs => ?_⟩
    · rw [← segments_of_notMem hslash, join_eq_append hslash]
      unfold segments
      rw [String.toList_append, h, List.append_assoc, List.singleton_append,
        Text.pieces_append_cons rfl]
    · apply String.toList_inj.1
      have hne : (Text.pieces (· == '/') above).map String.ofList ≠ [] := by
        simpa using Text.pieces_ne_nil (· == '/') above
      unfold ofSegments
      rw [List.map_append, List.map_singleton,
        String.intercalate_append_of_ne_nil hne (List.cons_ne_nil _ _),
        String.intercalate_singleton, String.toList_append, String.toList_append,
        String.toList_append, String.toList_intercalate, List.map_map, h, String.toList_ofList]
      have hid : String.toList ∘ String.ofList = id := funext fun _ => String.toList_ofList
      rw [hid, List.map_id, Text.intercalate_pieces]

/-! ## Extensions -/

/-- What stands before the last point of a name is its stem. -/
theorem stem_append (hfront : front ≠ []) (hlast : '.' ∉ last) :
    stem (front ++ '.' :: last) = front := by
  have hskip : ∀ c ∈ last.reverse, (c != '.') = true := by
    intro c hc
    rw [bne_iff_ne]
    rintro rfl
    exact hlast (List.mem_reverse.1 hc)
  unfold stem
  rw [List.reverse_append, List.reverse_cons, List.append_assoc,
    List.dropWhile_append_of_pos hskip, List.singleton_append,
    List.dropWhile_cons_of_neg (by simp), List.drop_one, List.tail_cons]
  obtain ⟨c, cs, hrev⟩ := List.exists_cons_of_ne_nil (mt List.reverse_eq_nil_iff.1 hfront)
  rw [hrev]
  simp only
  rw [← hrev, List.reverse_reverse]

theorem cut?_eq (hsegs : segments path = before ++ [cs]) (hempty : cs ≠ []) (hself : cs ≠ ['.'])
    (hparent : cs ≠ ['.', '.']) : cut? path = some ⟨before, cs, false⟩ := by
  have hdrop : (before ++ [cs]).reverse.dropWhile (fun s => s == [] || s == ['.']) =
      cs :: before.reverse := by
    rw [List.reverse_append, List.reverse_singleton, List.singleton_append]
    exact List.dropWhile_cons_of_neg (by simp [hempty, hself])
  unfold cut?
  rw [hsegs]
  dsimp only
  rw [hdrop]
  dsimp only
  rw [if_neg hparent, List.reverse_reverse]
  simp

/-- Below a directory the extension of a file replaces what follows the last point of its name. -/
theorem withExtension_join (dir ext : String) (hslash : '/' ∉ name.toList)
    (hname : name.toList = front ++ '.' :: last) (hlast : '.' ∉ last) (hfront : front ≠ [])
    (hpoint : front ≠ ['.']) :
    withExtension (join dir name) ext =
      slashed dir ++ String.ofList (if ext = "" then front else front ++ '.' :: ext.toList) := by
  obtain ⟨before, hsegs, hjoin⟩ := segments_join dir hslash
  have hself : name.toList ≠ ['.'] := by
    rw [hname]
    intro h
    rcases List.append_eq_singleton_iff.1 h with ⟨hnil, -⟩ | ⟨-, hnil⟩
    · exact hfront hnil
    · exact absurd hnil (List.cons_ne_nil _ _)
  have hparent : name.toList ≠ ['.', '.'] := by
    rw [hname]
    intro h
    obtain ⟨c, cs, rfl⟩ := List.exists_cons_of_ne_nil hfront
    cases cs with
    | nil => exact hpoint (by simpa using (List.cons.inj h).1)
    | cons c' cs => simp at h
  have hcut := cut?_eq hsegs (by simp [hname]) hself hparent
  unfold withExtension
  rw [hcut]
  dsimp only
  rw [hname, stem_append hfront hlast, if_neg (by simp [hpoint]), hjoin]
  simp

theorem slashed_append_inj {a b : String} : slashed dir ++ a = slashed dir ++ b ↔ a = b := by
  rw [← String.toList_inj, String.toList_append, String.toList_append, List.append_cancel_left_eq,
    String.toList_inj]

end Path

namespace Catalog

open Number

variable {category extension : String} {n : Nat}

/-! ## The table of a solution -/

/-- The file name of a solution without its extension. -/
def stemOf (category : String) (number : Nat) : String := s!"{category}-{number}"

theorem toList_stemOf (category : String) (n : Nat) :
    (stemOf category n).toList = category.toList ++ '-' :: Nat.toDigits 10 n := by
  simp only [stemOf, String.toList_append, List.append_assoc]
  show category.toList ++ ('-' :: (toString n).toList) = _
  rw [Nat.toString_eq_ofList_toDigits, String.toList_ofList]

theorem fileName_eq (category extension : String) (n : Nat) :
    fileName category extension n = stemOf category n ++ "." ++ extension := by
  apply String.toList_inj.1
  rw [toList_fileName, String.toList_append, String.toList_append, toList_stemOf]
  simp

theorem slash_notMem_stemOf (hcategory : '/' ∉ category.toList) :
    '/' ∉ (stemOf category n).toList := by
  rw [toList_stemOf, List.mem_append, List.mem_cons]
  rintro (h | h | h)
  · exact hcategory h
  · exact absurd h (by decide)
  · exact absurd (isDigit_of_mem_toDigits '/' h) (by decide)

/-- The name of a solution file, cut at its last point: the one before the extension, or one in the
extension. -/
structure CutAtPoint (category extension : String) (n : Nat) (front last : List Char) : Prop where
  name_eq : (fileName category extension n).toList = front ++ '.' :: last
  notMem_last : '.' ∉ last
  front_eq_or : (front = (stemOf category n).toList ∧ extension.toList = last) ∨
    ∃ inner, front = (stemOf category n).toList ++ '.' :: inner ∧
      extension.toList = inner ++ '.' :: last

theorem exists_cutAtPoint (category extension : String) (n : Nat) :
    ∃ front last, CutAtPoint category extension n front last := by
  have hname : (fileName category extension n).toList =
      (stemOf category n).toList ++ '.' :: extension.toList := by
    rw [toList_fileName, toList_stemOf]
    simp
  by_cases hpoint : '.' ∈ extension.toList
  · obtain ⟨after, before, hcut, hafter⟩ :=
      List.eq_append_cons_of_mem (List.mem_reverse.2 hpoint)
    have hext : extension.toList = before.reverse ++ '.' :: after.reverse := by
      have h := congrArg List.reverse hcut
      simpa using h
    refine ⟨(stemOf category n).toList ++ '.' :: before.reverse, after.reverse, ?_,
      by simpa using hafter, Or.inr ⟨before.reverse, rfl, hext⟩⟩
    rw [hname, hext]
    simp
  · exact ⟨(stemOf category n).toList, extension.toList, hname, hpoint, Or.inl ⟨rfl, rfl⟩⟩

theorem CutAtPoint.stem_prefix {front last : List Char}
    (h : CutAtPoint category extension n front last) : (stemOf category n).toList <+: front := by
  rcases h.front_eq_or with ⟨rfl, -⟩ | ⟨inner, rfl, -⟩
  · exact List.prefix_refl _
  · exact List.prefix_append _ _

section Table

variable {k : Catalog} {ext : String} (hcategory : '/' ∉ category.toList)
  (hextension : '/' ∉ k.extension.toList)

include hcategory hextension

/-- The path of the table, for a file name cut at its last point. -/
theorem withExtension_solutionPath (ext : String) {front last : List Char}
    (h : CutAtPoint category k.extension n front last) :
    Path.withExtension (k.solutionPath category n) ext =
      Path.slashed (Path.join k.root category) ++
        String.ofList (if ext = "" then front else front ++ '.' :: ext.toList) := by
  have hdash : '-' ∈ front := h.stem_prefix.subset (by simp [toList_stemOf])
  rw [solutionPath_eq]
  apply Path.withExtension_join _ _ (slash_notMem_of_parts hcategory hextension) h.name_eq
    h.notMem_last
  · exact List.ne_nil_of_mem hdash
  · rintro rfl
    exact absurd (List.mem_singleton.1 hdash) (by decide)

/-- The table has the name made from its own extension exactly if the other extension, which its own
replaces, holds no point. -/
theorem withExtension_eq_named_iff (hsidecar : '/' ∉ ext.toList) (hne : ext ≠ "") :
    Path.withExtension (k.solutionPath category n) ext =
        Path.join (Path.join k.root category) (fileName category ext n) ↔
      '.' ∉ k.extension.toList := by
  obtain ⟨front, last, h⟩ := exists_cutAtPoint category k.extension n
  rw [withExtension_solutionPath hcategory hextension ext h,
    Path.join_eq_append (slash_notMem_of_parts hcategory hsidecar), Path.slashed_append_inj,
    if_neg hne, ← String.toList_inj, String.toList_ofList, fileName_eq, String.toList_append,
    String.toList_append]
  rcases h.front_eq_or with ⟨rfl, hlist⟩ | ⟨inner, rfl, hinner⟩
  · rw [hlist]
    exact iff_of_true (by simp) h.notMem_last
  · -- what is left of the extension makes the name longer
    refine iff_of_false (fun heq => ?_) (fun hpoint => hpoint (by simp [hinner]))
    have hlength := congrArg List.length heq
    simp only [List.length_append, List.length_cons, List.length_nil,
      String.reduceToList] at hlength
    omega

/-- The table is the solution file exactly if the extension of that file ends with a point and the
other extension, which holds none. -/
theorem withExtension_eq_self_iff (hne : ext ≠ k.extension) :
    Path.withExtension (k.solutionPath category n) ext = k.solutionPath category n ↔
      ext ≠ "" ∧ '.' ∉ ext.toList ∧ ∃ front, k.extension = front ++ "." ++ ext := by
  obtain ⟨front, last, h⟩ := exists_cutAtPoint category k.extension n
  have hpath : k.solutionPath category n = Path.slashed (Path.join k.root category) ++
      fileName category k.extension n := by
    rw [solutionPath_eq, Path.join_eq_append (slash_notMem_of_parts hcategory hextension)]
  rw [withExtension_solutionPath hcategory hextension ext h, hpath, Path.slashed_append_inj,
    ← String.toList_inj, String.toList_ofList, h.name_eq]
  by_cases hempty : ext = ""
  · rw [if_pos hempty]
    simp [hempty]
  · rw [if_neg hempty, List.append_cancel_left_eq, List.cons.injEq, and_iff_right rfl]
    have hlast := h.notMem_last
    rcases h.front_eq_or with ⟨-, hlist⟩ | ⟨inner, -, hinner⟩
    · refine iff_of_false (fun heq => hne (String.toList_inj.1 (heq.trans hlist.symm))) ?_
      rintro ⟨-, -, before, hbefore⟩
      rw [← hlist, hbefore] at hlast
      simp at hlast
    · constructor
      · rintro rfl
        refine ⟨hempty, hlast, String.ofList inner, String.toList_inj.1 ?_⟩
        simp [hinner]
      · rintro ⟨-, hpoint, before, hbefore⟩
        rw [hbefore] at hinner
        simp only [String.toList_append, List.append_assoc] at hinner
        exact (append_cons_inj_of_notMem hpoint hlast hinner).2

/-- An empty extension leaves the bare name, if the one that it replaces holds no point. -/
theorem withExtension_empty (hpoint : '.' ∉ k.extension.toList) :
    Path.withExtension (k.solutionPath category n) "" =
      Path.join (Path.join k.root category) (stemOf category n) := by
  obtain ⟨front, last, h⟩ := exists_cutAtPoint category k.extension n
  rw [withExtension_solutionPath hcategory hextension "" h,
    Path.join_eq_append (slash_notMem_stemOf hcategory), Path.slashed_append_inj, if_pos rfl,
    ← String.toList_inj, String.toList_ofList]
  rcases h.front_eq_or with ⟨rfl, -⟩ | ⟨inner, -, hinner⟩
  · rfl
  · exact absurd (by simp [hinner]) hpoint

end Table

/-- Under valid settings, whose extensions and category hold no slash, the table of a solution has
the name that is made from its own extension exactly when the extension of the edge lists holds no
point. It is the edge list itself exactly when that extension ends with a point and the extension of
the tables, which has no point itself. An empty extension of the tables leaves the bare name. -/
theorem sidecar_exact {c : Config} {k : Catalog} (hc : c.validate = .ok c)
    (hroot : k.root = c.catalog.root) (hext : k.extension = c.catalog.extension)
    (hcategory : '/' ∉ category.toList) (hextension : '/' ∉ c.catalog.extension.toList)
    (hsidecar : '/' ∉ c.features.sidecarExtension.toList) (n : Nat) :
    (c.features.sidecarExtension ≠ "" →
      (Path.withExtension (k.solutionPath category n) c.features.sidecarExtension =
          Path.join (Path.join c.catalog.root category)
            s!"{category}-{n}.{c.features.sidecarExtension}" ↔
        '.' ∉ c.catalog.extension.toList)) ∧
    (Path.withExtension (k.solutionPath category n) c.features.sidecarExtension =
        k.solutionPath category n ↔
      c.features.sidecarExtension ≠ "" ∧ '.' ∉ c.features.sidecarExtension.toList ∧
        ∃ front, c.catalog.extension = front ++ "." ++ c.features.sidecarExtension) ∧
    (c.features.sidecarExtension = "" → '.' ∉ c.catalog.extension.toList →
      Path.withExtension (k.solutionPath category n) c.features.sidecarExtension =
        Path.join (Path.join c.catalog.root category) s!"{category}-{n}") := by
  rw [← hroot, ← hext]
  rw [← hext] at hextension
  have hne : c.features.sidecarExtension ≠ k.extension := by
    rw [hext]
    exact (Config.validate_eq_ok_iff_inRange.1 hc).sidecarExtension_ne
  refine ⟨withExtension_eq_named_iff hcategory hextension hsidecar,
    withExtension_eq_self_iff hcategory hextension hne, fun hempty hpoint => ?_⟩
  rw [hempty]
  exact withExtension_empty hcategory hextension hpoint

theorem sidecar_exact_default : Config.default.validate = .ok .default ∧
    (∀ k : Catalog, k.root = "data/raw" → k.extension = "edges" →
      Path.withExtension (k.solutionPath "a.b" 7) "features" =
        Path.join (Path.join "data/raw" "a.b") "a.b-7.features") := by
  have hvalid : Config.default.validate = .ok .default :=
    Config.validate_eq_ok_iff.2 ⟨Config.fault?_default, rfl⟩
  refine ⟨hvalid, fun k hroot hext => ?_⟩
  obtain ⟨hnamed, -, -⟩ :=
    sidecar_exact hvalid hroot hext (by decide : '/' ∉ "a.b".toList) (by decide) (by decide) 7
  exact (hnamed (by decide)).2 (by decide)

/-! ## An extension with a point -/

/-- The extension of the edge lists ends with that of the tables. -/
def dottedSettings : Config :=
  { catalog := { extension := "x.edges" }, features := { sidecarExtension := "edges" } }

def dottedDisk : Disk := Disk.empty.store "data/raw/a/a-1.x.edges" (.text "p c")

def dottedCatalog : Catalog := ⟨"data/raw", "x.edges", [⟨"a", [1], 1⟩]⟩

/-- These settings are valid, and the table of a solution is its edge list. -/
theorem sidecar_of_dotted_extension :
    dottedSettings.validate = .ok dottedSettings ∧
      load dottedDisk dottedSettings.catalog = .ok dottedCatalog ∧
      dottedDisk.isFile (dottedCatalog.solutionPath "a" 1) = true ∧
      Path.withExtension (dottedCatalog.solutionPath "a" 1) "edges" =
        dottedCatalog.solutionPath "a" 1 ∧
      Path.withExtension (dottedCatalog.solutionPath "a" 1) "edges" ≠ "data/raw/a/a-1.edges" := by
  decide +kernel

end Catalog

end TreeCorpus
