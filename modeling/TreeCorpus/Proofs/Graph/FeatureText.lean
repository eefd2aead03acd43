import Mathlib.Data.List.DropRight
import TreeCorpus.Proofs.Graph.FeatureRows

/-!
# Texts of feature tables

A line of a feature table is blank or a row: it is cut at its first colon, what stands before the
colon is one word and names the row, and what stands after it are numbers (`IsRow`). A text is read
exactly when its lines are blank or rows of the dimension; otherwise the first line that is neither
decides the error (`FirstFault`). Of the rows with one name the last is kept, and insertions into
the table keep the dimension of its rows (`rows_exact`).
-/

namespace TreeCorpus

open Number

/-! ## Trimmed lines -/

namespace Text

theorem dropWhile_append_cons {α : Type} {p : α → Bool} {c : α} (hc : p c = false)
    (xs ys : List α) : (xs ++ c :: ys).dropWhile p = xs.dropWhile p ++ c :: ys := by
  rw [List.dropWhile_append]
  split
  · rename_i hnil
    rw [List.isEmpty_iff.1 hnil, List.dropWhile_cons_of_neg (by simp [hc])]
    rfl
  · rfl

/-- Blanks at the end of a text are part of no word. -/
theorem words_append_blanks {cs bs : List Char} (h : ∀ c ∈ bs, isBlank c = true) :
    words (String.ofList (cs ++ bs)) = words (String.ofList cs) := by
  have hnone {ds : List Char} (hd : ∀ c ∈ ds, isBlank c = true) :
      (pieces isBlank ds).filter (!·.isEmpty) = [] := by
    induction ds with
    | nil => rfl
    | cons d ds ih =>
      obtain ⟨hd, hds⟩ := List.forall_mem_cons.1 hd
      rw [pieces_cons_of_separates hd, List.filter_cons_of_neg (by simp), ih hds]
  unfold words
  rw [String.toList_ofList, String.toList_ofList]
  cases bs with
  | nil => rw [List.append_nil]
  | cons b bs =>
    obtain ⟨hb, hbs⟩ := List.forall_mem_cons.1 h
    rw [pieces_append_cons hb, List.filter_append, hnone hbs, List.append_nil]

/-- What is left of a text of two parts around a character that is not blank. -/
theorem toList_trim_append_cons {c : Char} (hc : isBlank c = false) {s : String} {xs ys : List Char}
    (hs : s.toList = xs ++ c :: ys) :
    (trim s).toList =
      xs.dropWhile isBlank ++ c :: (ys.reverse.dropWhile isBlank).reverse := by
  unfold trim
  rw [String.toList_ofList, hs, dropWhile_append_cons hc, List.reverse_append, List.reverse_cons,
    List.append_assoc, List.singleton_append, dropWhile_append_cons hc, List.reverse_append,
    List.reverse_cons, List.reverse_reverse, List.append_assoc, List.singleton_append]

theorem trim_dropWhile (cs : List Char) :
    trim (String.ofList (cs.dropWhile isBlank)) = trim (String.ofList cs) := by
  unfold trim
  rw [String.toList_ofList, String.toList_ofList, List.dropWhile_idempotent]

theorem words_dropBlanks (cs : List Char) :
    words (String.ofList (cs.reverse.dropWhile isBlank).reverse) = words (String.ofList cs) := by
  have hsplit : (cs.reverse.dropWhile isBlank).reverse ++ (cs.reverse.takeWhile isBlank).reverse =
      cs := by
    rw [← List.reverse_append, List.takeWhile_append_dropWhile, List.reverse_reverse]
  have hblank : ∀ c ∈ (cs.reverse.takeWhile isBlank).reverse, isBlank c = true := by
    intro c hc
    exact List.all_eq_true.1 List.all_takeWhile c (List.mem_reverse.1 hc)
  rw [← words_append_blanks hblank, hsplit]

theorem isWord_iff {w : String} : IsWord w ↔ ¬ (w.isEmpty || w.toList.any isBlank) = true := by
  rw [Bool.or_eq_true, not_or, String.isEmpty_iff, List.any_eq_true]
  constructor
  · intro h
    refine ⟨fun he => h.ne_nil (by rw [he]; rfl), ?_⟩
    rintro ⟨c, hc, hblank⟩
    rw [h.not_blank c hc] at hblank
    exact absurd hblank (by decide)
  · rintro ⟨hne, hblank⟩
    refine ⟨fun he => hne (String.toList_eq_nil_iff.1 he), fun c hc => ?_⟩
    exact Bool.eq_false_iff.2 fun h => hblank ⟨c, hc, h⟩

end Text

namespace FeatureTable

variable {t t' : FeatureTable} {line name key origin : String} {values v : List Single}
  {lines : List String} {dimension n : Nat} {e : Error}

/-! ## One line -/

/-- The line is cut at its first colon. -/
structure Cut (line before after : String) : Prop where
  toList_eq : line.toList = before.toList ++ ':' :: after.toList
  colon_notMem : ':' ∉ before.toList

/-- The line is the row of a name: the name stands before the first colon, the values after it. -/
structure IsRow (line name : String) (values : List Single) : Prop where
  cut : ∃ before after, Cut line before after ∧ Text.trim before = name ∧
    (Text.words after).map Binary.ofText? = values.map some
  isWord : Text.IsWord name

/-- All characters of the line are blank. -/
def IsBlankLine (line : String) : Prop := ∀ c ∈ line.toList, Text.isBlank c = true

/-- The line is blank or the row of a vector of the dimension. -/
def Fits (dimension : Nat) (line : String) : Prop :=
  IsBlankLine line ∨ ∃ name values, IsRow line name values ∧ values.length = dimension

/-- What is wrong with line number `n` of a table. -/
inductive Offends (dimension : Nat) (origin : String) (n : Nat) (line : String) : Error → Prop where
  | noColon : ¬ IsBlankLine line → ':' ∉ line.toList →
      Offends dimension origin n line (.malformedFeatures origin n .noColon)
  | badName {before after : String} : Cut line before after → ¬ Text.IsWord (Text.trim before) →
      Offends dimension origin n line
        (.malformedFeatures origin n (.badName (Text.trim before)))
  | notANumber {before after w : String} {ws ws' : List String} : Cut line before after →
      Text.IsWord (Text.trim before) → Text.words after = ws ++ w :: ws' →
      (∀ u ∈ ws, ∃ x : Single, Binary.ofText? u = some x) →
      (Binary.ofText? w : Option Single) = none →
      Offends dimension origin n line (.malformedFeatures origin n (.notANumber w))
  | dimension {name : String} {values : List Single} : IsRow line name values →
      values.length ≠ dimension →
      Offends dimension origin n line (.featureDimension name origin dimension values.length)

theorem exists_cut (h : ':' ∈ line.toList) : ∃ before after, Cut line before after := by
  obtain ⟨before, after, hline, hbefore⟩ := List.eq_append_cons_of_mem h
  refine ⟨String.ofList before, String.ofList after, ?_, ?_⟩
  · rw [String.toList_ofList, String.toList_ofList, hline]
  · rwa [String.toList_ofList]

theorem Cut.not_isBlankLine {before after : String} (h : Cut line before after) :
    ¬ IsBlankLine line := by
  intro hblank
  have hcolon : ':' ∈ line.toList := h.toList_eq ▸ List.mem_append_right _ List.mem_cons_self
  exact absurd (hblank ':' hcolon) (by decide)

/-- A word that is no number stops the reading of values. -/
theorem readValues_of_not_number {us ws : List String} {w : String}
    (hus : ∀ u ∈ us, ∃ x : Single, Binary.ofText? u = some x)
    (hw : (Binary.ofText? w : Option Single) = none) :
    readValues (us ++ w :: ws) = .error (.notANumber w) := by
  induction us with
  | nil =>
    rw [List.nil_append, readValues, hw]
  | cons u us ih =>
    obtain ⟨⟨x, hx⟩, hus⟩ := List.forall_mem_cons.1 hus
    rw [List.cons_append, readValues, hx]
    simp only [ih hus]
    rfl

/-- Words are numbers, or one of them is the first that is none. -/
theorem numbers_or_first_other (ws : List String) :
    (∃ values : List Single, ws.map Binary.ofText? = values.map some) ∨
      ∃ us w ws', ws = us ++ w :: ws' ∧ (∀ u ∈ us, ∃ x : Single, Binary.ofText? u = some x) ∧
        (Binary.ofText? w : Option Single) = none := by
  induction ws with
  | nil => exact Or.inl ⟨[], rfl⟩
  | cons w ws ih =>
    cases hw : (Binary.ofText? w : Option Single) with
    | none => exact Or.inr ⟨[], w, ws, rfl, fun u hu => absurd hu List.not_mem_nil, hw⟩
    | some x =>
      rcases ih with ⟨values, hvalues⟩ | ⟨us, u, ws', rfl, hus, hu⟩
      · exact Or.inl ⟨x :: values, by rw [List.map_cons, hvalues, hw, List.map_cons]⟩
      · exact Or.inr ⟨w :: us, u, ws', rfl, List.forall_mem_cons.2 ⟨⟨x, hw⟩, hus⟩, hu⟩

/-- A line is blank, a row that fits, or at fault. -/
theorem fits_or_offends (dimension : Nat) (origin : String) (n : Nat) (line : String) :
    Fits dimension line ∨ ∃ e, Offends dimension origin n line e := by
  by_cases hblank : IsBlankLine line
  · exact Or.inl (Or.inl hblank)
  by_cases hcolon : ':' ∈ line.toList
  · obtain ⟨before, after, hcut⟩ := exists_cut hcolon
    by_cases hword : Text.IsWord (Text.trim before)
    · rcases numbers_or_first_other (Text.words after) with
        ⟨values, hvalues⟩ | ⟨us, w, ws, hws, hus, hw⟩
      · have hrow : IsRow line (Text.trim before) values :=
          ⟨⟨before, after, hcut, rfl, hvalues⟩, hword⟩
        by_cases hlength : values.length = dimension
        · exact Or.inl (Or.inr ⟨_, values, hrow, hlength⟩)
        · exact Or.inr ⟨_, .dimension hrow hlength⟩
      · exact Or.inr ⟨_, .notANumber hcut hword hws hus hw⟩
    · exact Or.inr ⟨_, .badName hcut hword⟩
  · exact Or.inr ⟨_, .noColon hblank hcolon⟩

/-! ## Reading a line -/

/-- The first colon cuts a line as well once its blanks at both ends are gone. -/
theorem readRow_of_cut {before after : String} (h : Cut line before after) :
    readRow (Text.trim line) =
      if (Text.trim before).isEmpty || (Text.trim before).toList.any Text.isBlank then
        .error (.badName (Text.trim before))
      else (readValues (Text.words after)).map (Text.trim before, ·) := by
  have hline := Text.toList_trim_append_cons (by decide) h.toList_eq
  have hbefore : ∀ c ∈ before.toList.dropWhile Text.isBlank, (c != ':') = true := by
    intro c hc
    rw [bne_iff_ne]
    rintro rfl
    exact h.colon_notMem ((List.dropWhile_sublist _).subset hc)
  unfold readRow
  simp only [hline, List.dropWhile_append_of_pos hbefore, List.takeWhile_append_of_pos hbefore]
  simp only [bne_self_eq_false, Bool.false_eq_true, not_false_eq_true,
    List.dropWhile_cons_of_neg, List.takeWhile_cons_of_neg, List.append_nil, Text.trim_dropWhile,
    Text.words_dropBlanks, String.ofList_toList]

theorem readRow_of_colon_notMem (h : ':' ∉ line.toList) : readRow line = .error .noColon := by
  have hdrop : line.toList.dropWhile (· != ':') = [] := by
    rw [List.dropWhile_eq_nil_iff]
    intro c hc
    rw [bne_iff_ne]
    rintro rfl
    exact h hc
  unfold readRow
  simp only [hdrop]

theorem IsRow.readRow_eq (h : IsRow line name values) :
    readRow (Text.trim line) = .ok (name, values) := by
  obtain ⟨⟨before, after, hcut, rfl, hvalues⟩, hword⟩ := h
  rw [readRow_of_cut hcut, if_neg (Text.isWord_iff.1 hword), readValues_eq_ok hvalues]
  rfl

theorem IsRow.not_isBlankLine (h : IsRow line name values) : ¬ IsBlankLine line := by
  obtain ⟨⟨before, after, hcut, -, -⟩, -⟩ := h
  exact hcut.not_isBlankLine

/-- A line is the row of one name with one vector. -/
theorem IsRow.unique (h : IsRow line name values) (h' : IsRow line key v) :
    name = key ∧ values = v :=
  Prod.mk.inj (Except.ok.inj (h.readRow_eq.symm.trans h'.readRow_eq))

theorem readLine_of_isBlankLine (h : IsBlankLine line) : t.readLine n line = .ok t := by
  unfold readLine
  exact if_pos (Text.isEmpty_trim_iff.2 h)

/-- What cannot be read as a row is refused with the number of its line. -/
theorem readLine_of_readRow_eq_error {fault : RowFault} (hblank : ¬ IsBlankLine line)
    (h : readRow (Text.trim line) = .error fault) : t.readLine n line = .error (.row n fault) := by
  have hne : ¬ (Text.trim line).isEmpty = true := mt Text.isEmpty_trim_iff.1 hblank
  unfold readLine
  dsimp only
  rw [if_neg hne, h]

theorem IsRow.readLine_eq (h : IsRow line name values) (t : FeatureTable) (n : Nat) :
    t.readLine n line = t.insert name values := by
  have hne : ¬ (Text.trim line).isEmpty = true := mt Text.isEmpty_trim_iff.1 h.not_isBlankLine
  unfold readLine
  dsimp only
  rw [if_neg hne, h.readRow_eq]

/-- A line at fault is refused for its fault. -/
theorem readLine_of_offends (h : Offends t.dimension origin n line e) :
    ∃ fault, t.readLine n line = .error fault ∧ Error.ofFeatures origin fault = e := by
  cases h with
  | noColon hblank hcolon =>
    have hrow : readRow (Text.trim line) = .error .noColon :=
      readRow_of_colon_notMem fun h => hcolon (Text.mem_of_mem_trim h)
    exact ⟨_, readLine_of_readRow_eq_error hblank hrow, rfl⟩
  | @badName before after hcut hword =>
    have hrow : readRow (Text.trim line) = .error (.badName (Text.trim before)) := by
      rw [readRow_of_cut hcut, if_pos (not_not.1 fun h => hword (Text.isWord_iff.2 h))]
    exact ⟨_, readLine_of_readRow_eq_error hcut.not_isBlankLine hrow, rfl⟩
  | @notANumber before after w _ _ hcut hword hws hus hw =>
    have hrow : readRow (Text.trim line) = .error (.notANumber w) := by
      rw [readRow_of_cut hcut, if_neg (Text.isWord_iff.1 hword), hws,
        readValues_of_not_number hus hw]
      rfl
    exact ⟨_, readLine_of_readRow_eq_error hcut.not_isBlankLine hrow, rfl⟩
  | @dimension name values hrow hlength =>
    refine ⟨.dimension name t.dimension values.length, ?_, rfl⟩
    rw [hrow.readLine_eq, insert, if_pos hlength]

/-! ## Reading lines -/

/-- The last row of the name among the lines has the values. -/
def LastRow (lines : List String) (name : String) (values : List Single) : Prop :=
  ∃ before line after, lines = before ++ line :: after ∧ IsRow line name values ∧
    ∀ l ∈ after, ∀ v, ¬ IsRow l name v

/-- The table holds the last row of each name in the lines, and nothing else. -/
structure HoldsRows (t : FeatureTable) (lines : List String) : Prop where
  lookup_iff : ∀ name values, t.lookup name = some values ↔ LastRow lines name values
  size_eq : ∃ names : List String, names.Nodup ∧
    (∀ name, name ∈ names ↔ ∃ line ∈ lines, ∃ values, IsRow line name values) ∧
    t.size = names.length

/-- The first line that is neither blank nor a row of the dimension, with its number from one. -/
def FirstFault (dimension : Nat) (origin : String) (lines : List String) (e : Error) : Prop :=
  ∃ before line after, lines = before ++ line :: after ∧ (∀ l ∈ before, Fits dimension l) ∧
    Offends dimension origin (before.length + 1) line e

theorem fit_or_firstFault (dimension : Nat) (origin : String) (lines : List String) :
    (∀ l ∈ lines, Fits dimension l) ∨ ∃ e, FirstFault dimension origin lines e := by
  induction lines using List.reverseRecOn with
  | nil => exact Or.inl fun l hl => absurd hl List.not_mem_nil
  | append_singleton lines line ih =>
    rcases ih with hfit | ⟨e, before, l, after, rfl, hbefore, hl⟩
    · rcases fits_or_offends dimension origin (lines.length + 1) line with hline | ⟨e, hline⟩
      · refine Or.inl fun l hl => ?_
        rcases List.mem_append.1 hl with hl | hl
        · exact hfit l hl
        · exact List.mem_singleton.1 hl ▸ hline
      · exact Or.inr ⟨e, lines, line, [], rfl, hfit, hline⟩
    · exact Or.inr ⟨e, before, l, after ++ [line],
        by rw [List.append_assoc, List.cons_append], hbefore, hl⟩

theorem readLines_append (t : FeatureTable) (n : Nat) (xs ys : List String) :
    t.readLines n (xs ++ ys) = match t.readLines n xs with
      | .ok t' => t'.readLines (n + xs.length) ys
      | .error fault => .error fault := by
  induction xs generalizing t n with
  | nil => rfl
  | cons x xs ih =>
    rw [List.cons_append, readLines, readLines]
    cases t.readLine n x with
    | ok t' =>
      simp only [ih t' (n + 1), List.length_cons]
      rw [show n + 1 + xs.length = n + (xs.length + 1) by omega]
    | error fault => rfl

/-- The last row of a name is that of the last line, or an earlier one if that line is none. -/
theorem lastRow_concat_iff :
    LastRow (lines ++ [line]) name values ↔
      IsRow line name values ∨ LastRow lines name values ∧ ∀ v, ¬ IsRow line name v := by
  constructor
  · rintro ⟨before, l, after, hlines, hrow, hafter⟩
    rcases List.eq_nil_or_concat after with rfl | ⟨after, l', rfl⟩
    · obtain ⟨-, hl⟩ := List.append_inj' hlines rfl
      obtain rfl : line = l := (List.cons.inj hl).1
      exact Or.inl hrow
    · rw [List.concat_eq_append, ← List.cons_append, ← List.append_assoc] at hlines
      obtain ⟨rfl, hl⟩ := List.append_inj' hlines rfl
      obtain rfl : line = l' := (List.cons.inj hl).1
      refine Or.inr ⟨⟨before, l, after, rfl, hrow, fun k hk => hafter k ?_⟩, hafter line ?_⟩
      · exact List.concat_eq_append ▸ List.mem_append_left _ hk
      · exact List.concat_eq_append ▸ List.mem_append_right _ List.mem_cons_self
  · rintro (hrow | ⟨⟨before, l, after, rfl, hrow, hafter⟩, hline⟩)
    · exact ⟨lines, line, [], rfl, hrow, fun k hk => absurd hk List.not_mem_nil⟩
    · refine ⟨before, l, after ++ [line], by rw [List.append_assoc, List.cons_append], hrow, ?_⟩
      intro k hk
      rcases List.mem_append.1 hk with hk | hk
      · exact hafter k hk
      · exact List.mem_singleton.1 hk ▸ hline

theorem exists_lastRow_iff :
    (∃ values, LastRow lines name values) ↔ ∃ line ∈ lines, ∃ values, IsRow line name values := by
  constructor
  · rintro ⟨values, before, line, after, rfl, hrow, -⟩
    exact ⟨line, by simp, values, hrow⟩
  · induction lines using List.reverseRecOn with
    | nil => exact fun ⟨line, hline, _⟩ => absurd hline List.not_mem_nil
    | append_singleton lines last ih =>
      rintro ⟨line, hline, hrow⟩
      by_cases hlast : ∃ values, IsRow last name values
      · obtain ⟨values, hlast⟩ := hlast
        exact ⟨values, lastRow_concat_iff.2 (Or.inl hlast)⟩
      · rcases List.mem_append.1 hline with hline | hline
        · obtain ⟨values, hvalues⟩ := ih ⟨line, hline, hrow⟩
          exact ⟨values, lastRow_concat_iff.2 (Or.inr ⟨hvalues, not_exists.1 hlast⟩)⟩
        · exact absurd (List.mem_singleton.1 hline ▸ hrow) hlast

namespace HoldsRows

theorem empty (dimension : Nat) (origin : String) :
    (FeatureTable.empty dimension origin).HoldsRows [] where
  lookup_iff name values := by
    constructor
    · intro h
      exact absurd h (by simp [lookup, FeatureTable.empty])
    · rintro ⟨before, line, after, hlines, -⟩
      exact absurd hlines (by simp)
  size_eq := ⟨[], List.nodup_nil, by simp, Std.HashMap.size_empty⟩

/-- A name is found exactly if a line is its row. -/
theorem exists_lookup_iff (h : t.HoldsRows lines) :
    (∃ values, t.lookup name = some values) ↔
      ∃ line ∈ lines, ∃ values, IsRow line name values := by
  rw [← exists_lastRow_iff]
  exact exists_congr fun values => h.lookup_iff name values

theorem concat_blank (h : t.HoldsRows lines) (hline : IsBlankLine line) :
    t.HoldsRows (lines ++ [line]) := by
  have hnone (key : String) (v : List Single) : ¬ IsRow line key v := fun hrow =>
    hrow.not_isBlankLine hline
  refine ⟨fun key v => ?_, ?_⟩
  · rw [h.lookup_iff, lastRow_concat_iff]
    simp [hnone]
  · obtain ⟨names, hnodup, hnames, hsize⟩ := h.size_eq
    refine ⟨names, hnodup, fun key => ?_, hsize⟩
    rw [hnames]
    simp [hnone]

theorem concat_row (h : t.HoldsRows lines) (hrow : IsRow line name values)
    (ht : t.insert name values = .ok t') : t'.HoldsRows (lines ++ [line]) := by
  refine ⟨fun key v => ?_, ?_⟩
  · rw [lookup_of_insert ht, lastRow_concat_iff]
    by_cases he : name = key
    · subst he
      rw [if_pos rfl, Option.some.injEq]
      constructor
      · rintro rfl
        exact Or.inl hrow
      · rintro (hrow' | ⟨-, hnone⟩)
        · exact (hrow.unique hrow').2
        · exact absurd hrow (hnone values)
    · have hnone : ∀ v, ¬ IsRow line key v := fun v hrow' => he (hrow.unique hrow').1
      rw [if_neg he]
      simp only [hnone, false_or, not_false_eq_true, implies_true, and_true]
      exact h.lookup_iff key v
  · obtain ⟨names, hnodup, hnames, hsize⟩ := h.size_eq
    have hrows (key : String) : (∃ l ∈ lines ++ [line], ∃ v, IsRow l key v) ↔
        key ∈ names ∨ key = name := by
      rw [hnames]
      constructor
      · rintro ⟨l, hl, v, hv⟩
        rcases List.mem_append.1 hl with hl | hl
        · exact Or.inl ⟨l, hl, v, hv⟩
        · obtain rfl := List.mem_singleton.1 hl
          exact Or.inr (hv.unique hrow).1
      · rintro (⟨l, hl, hv⟩ | rfl)
        · exact ⟨l, List.mem_append_left _ hl, hv⟩
        · exact ⟨line, List.mem_append_right _ List.mem_cons_self, values, hrow⟩
    have hfound : (t.lookup name).isSome = true ↔ name ∈ names := by
      rw [Option.isSome_iff_exists, h.exists_lookup_iff, hnames]
    by_cases hmem : name ∈ names
    · refine ⟨names, hnodup, fun key => ?_, ?_⟩
      · rw [hrows]
        exact ⟨Or.inl, fun hkey => hkey.elim id fun he => he ▸ hmem⟩
      · rw [size_of_insert ht, if_pos (hfound.2 hmem), hsize]
    · refine ⟨name :: names, List.nodup_cons.2 ⟨hmem, hnodup⟩, fun key => ?_, ?_⟩
      · rw [hrows, List.mem_cons, or_comm]
      · rw [size_of_insert ht, if_neg (mt hfound.1 hmem), hsize, List.length_cons]

end HoldsRows

/-- Lines that fit are read, and the table holds their rows. -/
theorem exists_readLines (origin : String) (h : ∀ l ∈ lines, Fits dimension l) :
    ∃ t, (FeatureTable.empty dimension origin).readLines 1 lines = .ok t ∧ t.HoldsRows lines := by
  induction lines using List.reverseRecOn with
  | nil => exact ⟨_, rfl, .empty dimension origin⟩
  | append_singleton lines line ih =>
    obtain ⟨t, ht, hrows⟩ := ih fun l hl => h l (List.mem_append_left _ hl)
    rw [readLines_append, ht]
    rcases h line (List.mem_append_right _ List.mem_cons_self) with
      hblank | ⟨name, values, hrow, hlength⟩
    · refine ⟨t, ?_, hrows.concat_blank hblank⟩
      simp only [readLines, readLine_of_isBlankLine hblank]
    · have hdimension : t.dimension = dimension :=
        ((Built.empty dimension origin).readLines ht).2
      obtain ⟨t', hinsert⟩ := exists_insert name (hlength.trans hdimension.symm)
      refine ⟨t', ?_, hrows.concat_row hrow hinsert⟩
      simp only [readLines, hrow.readLine_eq, hinsert]

/-- The first fault stops the reading, whatever follows it. -/
theorem parse_of_firstFault {text : String} (h : FirstFault dimension origin (Text.lines text) e) :
    FeatureTable.parse text dimension origin = .error e := by
  obtain ⟨before, line, after, hlines, hbefore, hline⟩ := h
  obtain ⟨t, ht, -⟩ := exists_readLines origin hbefore
  have hdimension : t.dimension = dimension := ((Built.empty dimension origin).readLines ht).2
  rw [← hdimension] at hline
  obtain ⟨fault, hfault, rfl⟩ := readLine_of_offends (n := before.length + 1) hline
  unfold FeatureTable.parse ofText
  rw [hlines, readLines_append, ht]
  simp only [readLines, Nat.add_comm 1, hfault]
  rfl

theorem parse_of_fits {text : String} (origin : String)
    (h : ∀ l ∈ Text.lines text, Fits dimension l) :
    ∃ t, FeatureTable.parse text dimension origin = .ok t ∧ t.HoldsRows (Text.lines text) := by
  obtain ⟨t, ht, hrows⟩ := exists_readLines origin h
  exact ⟨t, mapError_eq_ok_iff.2 ht, hrows⟩

/-! ## Insertions -/

/-- The table after an insertion; one that fails leaves the table as it is. -/
def put (t : FeatureTable) (row : String × List Single) : FeatureTable :=
  match t.insert row.1 row.2 with
  | .ok t' => t'
  | .error _ => t

/-- The table after some insertions. -/
def putAll (t : FeatureTable) (rows : List (String × List Single)) : FeatureTable :=
  rows.foldl put t

theorem Built.put (h : t.Built) (row : String × List Single) :
    (t.put row).Built ∧ (t.put row).dimension = t.dimension := by
  unfold FeatureTable.put
  cases ht : t.insert row.1 row.2 with
  | ok t' =>
    obtain ⟨-, he⟩ := insert_eq_ok_iff.1 ht
    exact ⟨h.insert ht, by rw [← he]⟩
  | error fault => exact ⟨h, rfl⟩

theorem Built.putAll (h : t.Built) (rows : List (String × List Single)) :
    (t.putAll rows).Built ∧ (t.putAll rows).dimension = t.dimension := by
  induction rows generalizing t with
  | nil => exact ⟨h, rfl⟩
  | cons row rows ih =>
    obtain ⟨hput, hdimension⟩ := h.put row
    obtain ⟨hall, hdimension'⟩ := ih hput
    exact ⟨hall, hdimension'.trans hdimension⟩

/-- All rows have the dimension; an insertion of another length fails and changes nothing, and one
that is accepted changes the row of its own name only. -/
structure KeepsRows (t : FeatureTable) (dimension : Nat) : Prop where
  length_eq : ∀ name values, t.lookup name = some values → values.length = dimension
  refused : ∀ name values, values.length ≠ dimension →
    t.insert name values = .error (.dimension name dimension values.length) ∧
      t.put (name, values) = t
  accepted : ∀ name values, values.length = dimension →
    ∃ t', t.insert name values = .ok t' ∧ t.put (name, values) = t' ∧
      t'.lookup name = some values ∧ (∀ key, key ≠ name → t'.lookup key = t.lookup key) ∧
      t'.size = if (t.lookup name).isSome then t.size else t.size + 1

theorem Built.keepsRows (h : t.Built) : t.KeepsRows t.dimension where
  length_eq _ _ hv := h.length_of_lookup hv
  refused name values hlength := by
    have hinsert : t.insert name values = .error (.dimension name t.dimension values.length) :=
      if_pos hlength
    refine ⟨hinsert, ?_⟩
    unfold FeatureTable.put
    rw [hinsert]
  accepted name values hlength := by
    obtain ⟨t', hinsert⟩ := exists_insert name hlength
    refine ⟨t', hinsert, ?_, ?_, fun key hkey => ?_, size_of_insert hinsert⟩
    · unfold FeatureTable.put
      rw [hinsert]
    · rw [lookup_of_insert hinsert, if_pos rfl]
    · rw [lookup_of_insert hinsert, if_neg (Ne.symm hkey)]

/-- A text is a feature table exactly when its lines are blank or rows of the dimension, and it is
refused for its first other line. The table holds the last row of each name. From it or from an
empty table, insertions keep the dimension of all rows, and each changes at most its own row. -/
theorem rows_exact (text origin : String) (dimension : Nat) :
    ((∃ t, FeatureTable.parse text dimension origin = .ok t) ↔
      ∀ line ∈ Text.lines text, Fits dimension line) ∧
    (∀ e, FeatureTable.parse text dimension origin = .error e ↔
      FirstFault dimension origin (Text.lines text) e) ∧
    (∀ t, FeatureTable.parse text dimension origin = .ok t → t.HoldsRows (Text.lines text)) ∧
    ∀ t, FeatureTable.parse text dimension origin = .ok t ∨
        t = FeatureTable.empty dimension origin →
      ∀ rows, (t.putAll rows).KeepsRows dimension := by
  have hcases := fit_or_firstFault dimension origin (Text.lines text)
  refine ⟨⟨?_, ?_⟩, fun e => ⟨?_, parse_of_firstFault⟩, ?_, ?_⟩
  · rintro ⟨t, ht⟩
    refine hcases.resolve_right ?_
    rintro ⟨e, he⟩
    exact nomatch (parse_of_firstFault he).symm.trans ht
  · intro hfits
    obtain ⟨t, ht, -⟩ := parse_of_fits origin hfits
    exact ⟨t, ht⟩
  · intro he
    rcases hcases with hfits | ⟨e', he'⟩
    · obtain ⟨t, ht, -⟩ := parse_of_fits origin hfits
      exact nomatch ht.symm.trans he
    · obtain rfl : e' = e := Except.error.inj ((parse_of_firstFault he').symm.trans he)
      exact he'
  · intro t ht
    rcases hcases with hfits | ⟨e, he⟩
    · obtain ⟨t', ht', hrows⟩ := parse_of_fits origin hfits
      obtain rfl : t' = t := Except.ok.inj (ht'.symm.trans ht)
      exact hrows
    · exact nomatch (parse_of_firstFault he).symm.trans ht
  · intro t ht rows
    have hbuilt : t.Built ∧ t.dimension = dimension := by
      rcases ht with ht | rfl
      · exact built_of_parse ht
      · exact ⟨.empty dimension origin, rfl⟩
    obtain ⟨hall, hdimension⟩ := hbuilt.1.putAll rows
    have hkeeps := hall.keepsRows
    rwa [hdimension, hbuilt.2] at hkeeps

/-- Blank lines count, and a row with too many values is named. -/
example : FeatureTable.parse "a: 1\n\nb : 2 3\n" 1 "mem" =
    .error (.featureDimension "b" "mem" 1 2) := by rfl

end FeatureTable

end TreeCorpus
