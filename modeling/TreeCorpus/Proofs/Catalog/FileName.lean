import TreeCorpus.Catalog.Scan
import TreeCorpus.Proofs.Number.Digits

/-!
# File names of solutions

A file counts as a solution when its name is the category, a dash, digits, a point and the extension
(`solutionNumber?_eq_some_iff`). The name that is made from a number counts as that number, and is
the only one that does and has no leading zero (`eq_fileName`). Names of two solutions differ
(`fileName_inj`).
-/

namespace TreeCorpus.Catalog

open Number

variable {category extension name : String} {n : Nat}

/-- The file name of a solution. -/
def fileName (category extension : String) (number : Nat) : String :=
  s!"{category}-{number}.{extension}"

theorem solutionPath_eq (c : Catalog) (category : String) (number : Nat) :
    c.solutionPath category number =
      Path.join (Path.join c.root category) (fileName category c.extension number) := rfl

@[simp] theorem toList_fileName (category extension : String) (n : Nat) :
    (fileName category extension n).toList =
      category.toList ++ '-' :: (Nat.toDigits 10 n ++ '.' :: extension.toList) := by
  simp only [fileName, String.toList_append, List.append_assoc]
  show category.toList ++ ('-' :: ((toString n).toList ++ ('.' :: extension.toList))) = _
  rw [Nat.toString_eq_ofList_toDigits, String.toList_ofList]

/-- A file name holds no slash if the category and the extension hold none. -/
theorem slash_notMem_of_parts (hcategory : '/' ∉ category.toList)
    (hextension : '/' ∉ extension.toList) : '/' ∉ (fileName category extension n).toList := by
  have hdigits : '/' ∉ Nat.toDigits 10 n := fun hmem =>
    absurd (isDigit_of_mem_toDigits '/' hmem) (by decide)
  rw [toList_fileName]
  simp only [List.mem_append, List.mem_cons, not_or]
  exact ⟨hcategory, by decide, hdigits, by decide, hextension⟩

/-- The dash sets a file name apart from the names of a directory itself and of the one above. -/
theorem fileName_ne (hdash : '-' ∉ name.toList) : fileName category extension n ≠ name := by
  rintro rfl
  exact hdash (by simp)

/-! ## Numbers of names -/

/-- Between the category with its dash and the point with its extension stand the digits. -/
theorem solutionNumber?_of_toList {ds : List Char}
    (h : name.toList = category.toList ++ '-' :: (ds ++ '.' :: extension.toList)) :
    solutionNumber? category extension name = (sizeOfDigits? ds).filter (1 ≤ ·) := by
  have hcut : name.toList = (category.toList ++ ['-']) ++ (ds ++ '.' :: extension.toList) := by
    simp [h]
  have hdrop : name.toList.drop (category.toList ++ ['-']).length =
      ds ++ '.' :: extension.toList := by
    rw [hcut, List.drop_left]
  have hlen : name.toList.length - (category.toList ++ ['-']).length -
      ('.' :: extension.toList).length = ds.length := by
    simp only [hcut, List.length_append]
    omega
  have hfits : ((category.toList ++ ['-']).isPrefixOf name.toList &&
      ('.' :: extension.toList).isSuffixOf
        (name.toList.drop (category.toList ++ ['-']).length)) = true := by
    rw [hdrop, hcut, Bool.and_eq_true, List.isPrefixOf_iff_prefix, List.isSuffixOf_iff_suffix]
    exact ⟨List.prefix_append .., List.suffix_append ..⟩
  unfold solutionNumber?
  dsimp only
  rw [if_pos hfits, hdrop, hlen, List.take_left]
  cases sizeOfDigits? ds with
  | none => rfl
  | some m => by_cases hm : 1 ≤ m <;> simp [Option.filter, hm]

/-- A name counts as a number exactly if that is what its digits stand for. -/
theorem solutionNumber?_eq_some_iff :
    solutionNumber? category extension name = some n ↔
      ∃ ds, name.toList = category.toList ++ '-' :: (ds ++ '.' :: extension.toList) ∧
        sizeOfDigits? ds = some n ∧ 1 ≤ n := by
  constructor
  · intro h
    have hparts : ∃ ds,
        name.toList = category.toList ++ '-' :: (ds ++ '.' :: extension.toList) := by
      unfold solutionNumber? at h
      dsimp only at h
      split at h
      · rename_i hfits
        rw [Bool.and_eq_true, List.isPrefixOf_iff_prefix, List.isSuffixOf_iff_suffix] at hfits
        obtain ⟨⟨rest, hrest⟩, hsuffix⟩ := hfits
        rw [← hrest, List.drop_left] at hsuffix
        obtain ⟨ds, rfl⟩ := hsuffix
        exact ⟨ds, by simp [← hrest]⟩
      · exact absurd h (by simp)
    obtain ⟨ds, hds⟩ := hparts
    rw [solutionNumber?_of_toList hds, Option.filter_eq_some_iff] at h
    exact ⟨ds, hds, h.1, by simpa using h.2⟩
  · rintro ⟨ds, hds, hn, hpos⟩
    rw [solutionNumber?_of_toList hds, Option.filter_eq_some_iff]
    exact ⟨hn, by simpa using hpos⟩

/-- The number of a solution file is written with a leading zero. -/
def LeadingZero (category name : String) : Prop := category.toList ++ ['-', '0'] <+: name.toList

instance (category name : String) : Decidable (LeadingZero category name) :=
  inferInstanceAs (Decidable (_ <+: _))

/-- A name without a leading zero is the one that is made from its number. -/
theorem eq_fileName (h : solutionNumber? category extension name = some n)
    (hzero : ¬ LeadingZero category name) : name = fileName category extension n := by
  obtain ⟨ds, hds, hn, -⟩ := solutionNumber?_eq_some_iff.1 h
  have hhead : ds.head? ≠ some '0' := by
    intro h0
    obtain ⟨ds, rfl⟩ := List.head?_eq_some_iff.1 h0
    exact hzero ⟨ds ++ '.' :: extension.toList, by simp [hds]⟩
  apply String.toList_inj.1
  rw [toList_fileName, toDigits_of_sizeOfDigits? hn hhead, hds]

/-- The name that is made from a number counts as that number. -/
theorem solutionNumber?_fileName (hpos : 1 ≤ n) (hn : n < sizeLimit) :
    solutionNumber? category extension (fileName category extension n) = some n :=
  solutionNumber?_eq_some_iff.2
    ⟨_, toList_fileName category extension n, sizeOfDigits?_toDigits hn, hpos⟩

theorem not_leadingZero_fileName (hpos : 1 ≤ n) :
    ¬ LeadingZero category (fileName category extension n) := by
  intro hzero
  have hprefix : ['-', '0'] <+: '-' :: (Nat.toDigits 10 n ++ '.' :: extension.toList) := by
    rw [LeadingZero, toList_fileName] at hzero
    exact (List.prefix_append_right_inj _).1 hzero
  obtain ⟨d, ds, hds⟩ := List.exists_cons_of_ne_nil (Nat.toDigits_ne_nil (n := n) (b := 10))
  rw [hds, List.cons_append, List.cons_prefix_cons, List.cons_prefix_cons] at hprefix
  obtain ⟨-, rfl, -⟩ := hprefix
  have hn := head?_toDigits n (by rw [hds]; rfl)
  omega

/-! ## Distinct names -/

/-- A text is cut at the last place of a character in one way. -/
theorem append_cons_inj_of_notMem {c : Char} {xs ys ds es : List Char} (hds : c ∉ ds) (hes : c ∉ es)
    (h : xs ++ c :: ds = ys ++ c :: es) : xs = ys ∧ ds = es := by
  rcases List.append_eq_append_iff.1 h with ⟨zs, rfl, hz⟩ | ⟨zs, rfl, hz⟩
  · cases zs with
    | nil => exact ⟨by simp, List.tail_eq_of_cons_eq hz⟩
    | cons z zs =>
      rw [List.cons_append] at hz
      exact absurd (List.tail_eq_of_cons_eq hz ▸ List.mem_append_right zs List.mem_cons_self) hds
  · cases zs with
    | nil => exact ⟨by simp, (List.tail_eq_of_cons_eq hz).symm⟩
    | cons z zs =>
      rw [List.cons_append] at hz
      exact absurd (List.tail_eq_of_cons_eq hz ▸ List.mem_append_right zs List.mem_cons_self) hes

/-- Solutions of one extension with one file name are one solution. -/
theorem fileName_inj {category' : String} {n' : Nat}
    (h : fileName category extension n = fileName category' extension n') :
    category = category' ∧ n = n' := by
  have hdash (m : Nat) : '-' ∉ Nat.toDigits 10 m := fun hm =>
    absurd (isDigit_of_mem_toDigits '-' hm) (by decide)
  have hlist := congrArg String.toList h
  rw [toList_fileName, toList_fileName, ← List.cons_append, ← List.cons_append,
    ← List.append_assoc, ← List.append_assoc] at hlist
  obtain ⟨hcategory, hdigits⟩ := append_cons_inj_of_notMem (hdash n) (hdash n')
    (List.append_cancel_right hlist)
  refine ⟨String.toList_inj.1 hcategory, ?_⟩
  calc n = Nat.ofDigitChars 10 (Nat.toDigits 10 n) 0 := Nat.ofDigitChars_ten_toDigits.symm
    _ = Nat.ofDigitChars 10 (Nat.toDigits 10 n') 0 := by rw [hdigits]
    _ = n' := Nat.ofDigitChars_ten_toDigits

end TreeCorpus.Catalog
