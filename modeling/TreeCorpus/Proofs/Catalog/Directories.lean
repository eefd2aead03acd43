import TreeCorpus.Proofs.Catalog.Scan

/-!
# Directories as categories

The entries of the root are taken in the order of the bytes of their names, which is a linear order
(`nameLe_trans`, `nameLe_total`, `nameLe_antisymm`), so entries with distinct names are sorted in
one way (`filter_sortByName_eq`). A visible directory, or a visible link to one, is a category
(`mem_categoryNames_iff`); a link that leads nowhere or back to the root stops the scan, whether its
name is hidden or not (`entryIsCategory_eq_error_iff`), and the first such link is the error
(`exists_first_of_categoryNames`).
-/

namespace TreeCorpus.Catalog

variable {a b c : String} {es es' : List (String × Item)} {d d' : Disk} {root name : String}
  {r : Location} {i : Item} {names : List String} {e : Error}

/-! ## The bytes of a name -/

/-- Listing the bytes from a position on puts those before it first. -/
theorem bytes_loop (bs : ByteArray) (i : Nat) (before : List UInt8) :
    ByteArray.toList.loop bs i before = before.reverse ++ bs.data.toList.drop i := by
  fun_induction ByteArray.toList.loop bs i before with
  | case1 i before hi ih =>
    have hlt : i < bs.data.toList.length := by rwa [Array.length_toList]
    have hget : bs.get! i = bs.data.toList[i] := by
      rw [Array.getElem_toList]
      exact getElem!_pos bs.data i (by rwa [← Array.length_toList])
    rw [ih, List.reverse_cons, List.append_assoc, List.singleton_append, hget,
      ← List.drop_eq_getElem_cons hlt]
  | case2 i before hi =>
    have hle : bs.data.toList.length ≤ i := by
      rw [Array.length_toList]
      exact Nat.le_of_not_lt hi
    rw [List.drop_eq_nil_of_le hle, List.append_nil]

theorem bytes_inj (h : a.toUTF8.toList = b.toUTF8.toList) : a = b := by
  unfold ByteArray.toList at h
  rw [bytes_loop, bytes_loop, List.drop_zero, List.drop_zero, List.reverse_nil, List.nil_append,
    List.nil_append, Array.toList_inj] at h
  exact String.toByteArray_inj.1 (ByteArray.ext h)

/-! ## A linear order -/

theorem nameLe_trans (hab : nameLe a b = true) (hbc : nameLe b c = true) : nameLe a c = true := by
  unfold nameLe at *
  simp only [Bool.not_eq_true', decide_eq_false_iff_not] at *
  exact List.le_trans hab hbc

theorem nameLe_total (a b : String) : (nameLe a b || nameLe b a) = true := by
  unfold nameLe
  simp only [Bool.or_eq_true, Bool.not_eq_true', decide_eq_false_iff_not]
  exact List.le_total _ _

theorem nameLe_antisymm (hab : nameLe a b = true) (hba : nameLe b a = true) : a = b := by
  unfold nameLe at *
  simp only [Bool.not_eq_true', decide_eq_false_iff_not] at *
  exact bytes_inj (List.le_antisymm hab hba)

/-! ## Sorted entries -/

/-- Entries in the order of their names. -/
def sortByName (es : List (String × Item)) : List (String × Item) :=
  es.mergeSort fun a b => nameLe a.1 b.1

theorem pairwise_sortByName (es : List (String × Item)) :
    (sortByName es).Pairwise fun a b => nameLe a.1 b.1 = true := by
  apply List.pairwise_mergeSort
  · intro a b c hab hbc
    exact nameLe_trans hab hbc
  · intro a b
    exact nameLe_total a.1 b.1

@[simp] theorem mem_sortByName {e : String × Item} : e ∈ sortByName es ↔ e ∈ es :=
  List.mem_mergeSort

/-- Of entries with distinct names the selected ones are sorted in one way. -/
theorem filter_sortByName_eq {p : String × Item → Bool} (hes : (es.map Prod.fst).Nodup)
    (hes' : (es'.map Prod.fst).Nodup) (h : ∀ e, p e = true → (e ∈ es ↔ e ∈ es')) :
    (sortByName es).filter p = (sortByName es').filter p := by
  have hnodup {es : List (String × Item)} (hes : (es.map Prod.fst).Nodup) :
      ((sortByName es).filter p).Nodup := by
    have hsort := (List.mergeSort_perm es fun a b => nameLe a.1 b.1).map Prod.fst
    exact (List.Nodup.of_map _ (hsort.nodup_iff.2 hes)).filter p
  apply List.Perm.eq_of_pairwise _ ((pairwise_sortByName es).filter p)
    ((pairwise_sortByName es').filter p)
  · rw [List.perm_ext_iff_of_nodup (hnodup hes) (hnodup hes')]
    intro e
    simp only [List.mem_filter, mem_sortByName]
    exact and_congr_left (h e)
  · rintro ⟨name, i⟩ ⟨name', i'⟩ hmem hmem' hle hle'
    obtain rfl := nameLe_antisymm hle hle'
    simp only [List.mem_filter, mem_sortByName] at hmem hmem'
    exact List.inj_on_of_nodup_map hes hmem.1 ((h _ hmem'.2).2 hmem'.1) rfl

/-- Entries with distinct names are sorted in one way. -/
theorem sortByName_congr (hes : (es.map Prod.fst).Nodup) (hes' : (es'.map Prod.fst).Nodup)
    (h : ∀ e, e ∈ es ↔ e ∈ es') : sortByName es = sortByName es' := by
  have hall := filter_sortByName_eq (p := fun _ => true) hes hes' fun e _ => h e
  rwa [List.filter_true, List.filter_true] at hall

/-! ## One entry -/

theorem entryIsCategory_link {target : String} {loc : Location}
    (hr : d.resolve (Path.join root name) = .arrived loc) :
    entryIsCategory d root r name (.link target) =
      if loc = r then .error (.catalog (Path.join root name) .badEntry)
      else .ok (!isHidden name && d.lookup loc == some .directory) := by
  unfold entryIsCategory
  simp only [hr]

theorem entryIsCategory_link_of_lost {target : String}
    (hr : ∀ loc, d.resolve (Path.join root name) ≠ .arrived loc) :
    entryIsCategory d root r name (.link target) =
      .error (.catalog (Path.join root name) .badEntry) := by
  unfold entryIsCategory
  cases hw : d.resolve (Path.join root name) with
  | arrived loc => exact absurd hw (hr loc)
  | _ => simp only [hw]

/-- An entry stops the scan when it is a link that leads nowhere or back to the root. -/
theorem entryIsCategory_eq_error_iff :
    entryIsCategory d root r name i = .error e ↔
      (∃ target, i = .link target) ∧
        (∀ loc, d.resolve (Path.join root name) = .arrived loc → loc = r) ∧
        e = .catalog (Path.join root name) .badEntry := by
  cases i with
  | file content => simp [entryIsCategory]
  | directory => simp [entryIsCategory]
  | link target =>
    by_cases hr : ∃ loc, d.resolve (Path.join root name) = .arrived loc
    · obtain ⟨loc, hloc⟩ := hr
      rw [entryIsCategory_link hloc]
      by_cases hroot : loc = r
      · simp [hloc, hroot, eq_comm]
      · simp [hloc, hroot]
    · rw [entryIsCategory_link_of_lost (not_exists.1 hr)]
      have hlost : ∀ loc, d.resolve (Path.join root name) = .arrived loc → loc = r :=
        fun loc hloc => absurd ⟨loc, hloc⟩ hr
      rw [Except.error.injEq, eq_comm]
      exact ⟨fun he => ⟨⟨target, rfl⟩, hlost, he⟩, fun h => h.2.2⟩

/-- A category is a visible directory, or a visible link that leads to one other than the root. -/
theorem entryIsCategory_eq_true_iff :
    entryIsCategory d root r name i = .ok true ↔
      isHidden name = false ∧ (i = .directory ∨ (∃ target, i = .link target) ∧
        ∃ loc, d.resolve (Path.join root name) = .arrived loc ∧ loc ≠ r ∧
          d.lookup loc = some .directory) := by
  cases i with
  | file content => simp [entryIsCategory]
  | directory => simp [entryIsCategory]
  | link target =>
    by_cases hr : ∃ loc, d.resolve (Path.join root name) = .arrived loc
    · obtain ⟨loc, hloc⟩ := hr
      rw [entryIsCategory_link hloc]
      by_cases hroot : loc = r
      · simp [hloc, hroot]
      · simp [hloc, hroot]
    · rw [entryIsCategory_link_of_lost (not_exists.1 hr)]
      simp [not_exists.1 hr]

/-- A hidden entry is no category. -/
theorem entryIsCategory_of_isHidden (hhidden : isHidden name = true)
    (h : ∀ e, entryIsCategory d root r name i ≠ .error e) :
    entryIsCategory d root r name i = .ok false := by
  cases hi : entryIsCategory d root r name i with
  | error e => exact absurd hi (h e)
  | ok keep =>
    cases keep with
    | false => rfl
    | true =>
      have hvisible := (entryIsCategory_eq_true_iff.1 hi).1
      rw [hhidden] at hvisible
      exact nomatch hvisible

/-! ## Names among entries -/

/-- Only what the entries are decides which of them are categories. -/
theorem categoryNames_congr
    (h : ∀ e ∈ es, entryIsCategory d' root r e.1 e.2 = entryIsCategory d root r e.1 e.2) :
    categoryNames d' root r es = categoryNames d root r es := by
  induction es with
  | nil => rfl
  | cons e es ih =>
    obtain ⟨name, i⟩ := e
    obtain ⟨hhead, htail⟩ := List.forall_mem_cons.1 h
    unfold categoryNames
    rw [hhead, ih htail]

/-- Entries that are no categories can be left out. -/
theorem categoryNames_filter {p : String × Item → Bool}
    (h : ∀ e ∈ es, p e = false → entryIsCategory d root r e.1 e.2 = .ok false) :
    categoryNames d root r (es.filter p) = categoryNames d root r es := by
  induction es with
  | nil => rfl
  | cons e es ih =>
    obtain ⟨name, i⟩ := e
    obtain ⟨hhead, htail⟩ := List.forall_mem_cons.1 h
    cases hp : p (name, i) with
    | true =>
      rw [List.filter_cons_of_pos hp]
      unfold categoryNames
      rw [ih htail]
    | false =>
      rw [List.filter_cons_of_neg (by simp [hp]), ih htail, categoryNames_cons_of_ok (hhead hp)]
      cases categoryNames d root r es <;> rfl

theorem mem_categoryNames_iff (h : categoryNames d root r es = .ok names) :
    name ∈ names ↔ ∃ i, (name, i) ∈ es ∧ entryIsCategory d root r name i = .ok true := by
  induction es generalizing names with
  | nil =>
    obtain rfl := Except.ok.inj h
    simp
  | cons e es ih =>
    obtain ⟨name', i'⟩ := e
    cases hkeep : entryIsCategory d root r name' i' with
    | error e =>
      rw [categoryNames_cons_of_error hkeep] at h
      exact nomatch h
    | ok keep =>
      rw [categoryNames_cons_of_ok hkeep] at h
      obtain ⟨rest, hrest, rfl⟩ := map_eq_ok_iff.1 h
      have hsplit : (∃ i, (name, i) ∈ (name', i') :: es ∧
          entryIsCategory d root r name i = .ok true) ↔
          (name = name' ∧ keep = true) ∨ name ∈ rest := by
        rw [ih hrest]
        constructor
        · rintro ⟨i, hmem, hi⟩
          rcases List.mem_cons.1 hmem with heq | hmem
          · obtain ⟨rfl, rfl⟩ := Prod.mk.inj heq
            exact Or.inl ⟨rfl, Except.ok.inj (hkeep.symm.trans hi)⟩
          · exact Or.inr ⟨i, hmem, hi⟩
        · rintro (⟨rfl, rfl⟩ | ⟨i, hmem, hi⟩)
          · exact ⟨i', List.mem_cons_self, hkeep⟩
          · exact ⟨i, List.mem_cons_of_mem _ hmem, hi⟩
      rw [hsplit]
      cases keep <;> simp

/-- Entries among which the categories are found do not stop the scan. -/
theorem ok_of_categoryNames (h : categoryNames d root r es = .ok names) (hi : (name, i) ∈ es) :
    ∃ keep, entryIsCategory d root r name i = .ok keep := by
  induction es generalizing names with
  | nil => exact absurd hi List.not_mem_nil
  | cons e es ih =>
    obtain ⟨name', i'⟩ := e
    cases hkeep : entryIsCategory d root r name' i' with
    | error e =>
      rw [categoryNames_cons_of_error hkeep] at h
      exact nomatch h
    | ok keep =>
      rw [categoryNames_cons_of_ok hkeep] at h
      obtain ⟨rest, hrest, -⟩ := map_eq_ok_iff.1 h
      rcases List.mem_cons.1 hi with heq | hi
      · obtain ⟨rfl, rfl⟩ := Prod.mk.inj heq
        exact ⟨keep, hkeep⟩
      · exact ih hrest hi

/-- The error of the scan is that of the first entry that stops it. -/
theorem exists_first_of_categoryNames (h : categoryNames d root r es = .error e) :
    ∃ before name i after, es = before ++ (name, i) :: after ∧
      (∀ b ∈ before, ∃ keep, entryIsCategory d root r b.1 b.2 = .ok keep) ∧
      entryIsCategory d root r name i = .error e := by
  induction es with
  | nil => exact nomatch h
  | cons e₀ es ih =>
    obtain ⟨name, i⟩ := e₀
    cases hkeep : entryIsCategory d root r name i with
    | error e' =>
      obtain rfl := Except.error.inj ((categoryNames_cons_of_error hkeep).symm.trans h)
      exact ⟨[], name, i, es, rfl, by simp, hkeep⟩
    | ok keep =>
      rw [categoryNames_cons_of_ok hkeep] at h
      obtain ⟨before, name', i', after, rfl, hbefore, hfirst⟩ := ih (map_eq_error_iff.1 h)
      exact ⟨(name, i) :: before, name', i', after, rfl,
        List.forall_mem_cons.2 ⟨⟨keep, hkeep⟩, hbefore⟩, hfirst⟩

/-- The categories are those among the entries of the root in the order of their names. -/
theorem categoryDirectories_of_resolve (hr : d.resolve root = .arrived r) :
    categoryDirectories d root = categoryNames d root r (sortByName (d.entriesAt r)) := by
  unfold categoryDirectories
  rw [hr]
  rfl

theorem exists_of_categoryDirectories (h : categoryDirectories d root = .ok names) :
    ∃ r, d.resolve root = .arrived r ∧
      categoryNames d root r (sortByName (d.entriesAt r)) = .ok names := by
  unfold categoryDirectories at h
  split at h
  · rename_i r hr
    exact ⟨r, hr, h⟩
  · exact absurd h (by simp)

end TreeCorpus.Catalog
