import Mathlib.Data.List.TakeWhile
import TreeCorpus.Text.Blank

/-!
# Lines that are written and read

A text in which a line feed ends every line has these lines, up to a carriage return at their ends
(`lines_unlines`). A line is blank when all its characters are (`isEmpty_trim_iff`), and blank lines
may be put between other lines (`Spaced`).
-/

namespace TreeCorpus.Text

variable {l : String} {ls ms : List String}

/-- The text of some lines, each ended by a line feed. -/
def unlines (ls : List String) : String := String.join (ls.map (· ++ "\n"))

/-- The line without a carriage return at its end. -/
def withoutReturn (l : String) : String := String.ofList (dropReturn l.toList)

/-! ## Lines -/

theorem pieces_of_not_separates {α : Type} {p : α → Bool} {cs : List α} (h : ∀ c ∈ cs, p c = false) :
    pieces p cs = [cs] := by
  induction cs with
  | nil => rfl
  | cons c cs ih =>
    have hc := h c List.mem_cons_self
    have hrest := ih fun c' hc' => h c' (List.mem_cons_of_mem c hc')
    unfold pieces at hrest ⊢
    rw [List.foldr_cons, hrest, hc]
    rfl

theorem pieces_cons_of_not_separates {α : Type} {p : α → Bool} {c : α} {cs w : List α}
    {ws : List (List α)} (hc : p c = false) (hw : pieces p cs = w :: ws) :
    pieces p (c :: cs) = (c :: w) :: ws := by
  unfold pieces at hw ⊢
  rw [List.foldr_cons, hw, hc]
  rfl

/-- Pieces with their separator between them are the whole again. -/
theorem intercalate_pieces (c : Char) (cs : List Char) :
    [c].intercalate (pieces (· == c) cs) = cs := by
  induction cs with
  | nil => rfl
  | cons x cs ih =>
    obtain ⟨w, ws, hw⟩ := List.exists_cons_of_ne_nil (pieces_ne_nil (· == c) cs)
    cases hx : x == c with
    | true =>
      rw [pieces_cons_of_separates (p := (· == c)) hx, hw, List.intercalate_cons_cons, ← hw, ih,
        eq_of_beq hx]
      rfl
    | false =>
      rw [pieces_cons_of_not_separates (p := (· == c)) hx hw]
      rw [hw] at ih
      cases ws with
      | nil =>
        rw [List.intercalate_singleton] at ih ⊢
        rw [ih]
      | cons v vs =>
        rw [List.intercalate_cons_cons] at ih ⊢
        rw [List.cons_append, List.cons_append, ih]

theorem pieces_unlines (h : ∀ l ∈ ls, '\n' ∉ l.toList) :
    pieces (· == '\n') (unlines ls).toList = ls.map String.toList ++ [[]] := by
  induction ls with
  | nil => rfl
  | cons l ls ih =>
    have hl : ∀ c ∈ l.toList, (c == '\n') = false := by
      intro c hc
      rw [beq_eq_false_iff_ne]
      rintro rfl
      exact h l List.mem_cons_self hc
    have hcons : (unlines (l :: ls)).toList = l.toList ++ '\n' :: (unlines ls).toList := by
      simp [unlines, String.join_cons, String.toList_append]
    rw [hcons, pieces_append_cons rfl, pieces_of_not_separates hl,
      ih fun m hm => h m (List.mem_cons_of_mem l hm)]
    rfl

/-- The lines of a text in which a line feed ends every line. -/
theorem lines_unlines (h : ∀ l ∈ ls, '\n' ∉ l.toList) :
    lines (unlines ls) = ls.map withoutReturn := by
  unfold lines
  rw [pieces_unlines h]
  simp [withoutReturn]

theorem withoutReturn_eq_self (h : l.toList.getLast? ≠ some '\r') : withoutReturn l = l := by
  unfold withoutReturn dropReturn
  rw [if_neg h, String.ofList_toList]

/-- Lines without a carriage return at their ends are read back. -/
theorem lines_unlines_eq_self (h : ∀ l ∈ ls, '\n' ∉ l.toList)
    (hreturn : ∀ l ∈ ls, withoutReturn l = l) : lines (unlines ls) = ls := by
  rw [lines_unlines h]
  exact (List.map_congr_left hreturn).trans (List.map_id ls)

theorem unlines_append (ls ms : List String) : unlines (ls ++ ms) = unlines ls ++ unlines ms := by
  unfold unlines
  rw [List.map_append, String.join_append]

/-! ## Blank lines -/

/-- Nothing is left of a line exactly when all its characters are blank. -/
theorem isEmpty_trim_iff : (trim l).isEmpty = true ↔ ∀ c ∈ l.toList, isBlank c = true := by
  unfold trim
  rw [String.isEmpty_iff, String.ofList_eq_empty_iff, List.reverse_eq_nil_iff,
    List.dropWhile_eq_nil_iff]
  constructor
  · intro h
    rw [← List.dropWhile_eq_nil_iff]
    by_cases hne : l.toList.dropWhile isBlank = []
    · exact hne
    · -- the first character left is not blank
      have hhead := List.head_dropWhile_not isBlank hne
      rw [h _ (List.mem_reverse.2 (List.head_mem hne))] at hhead
      exact absurd hhead (by decide)
  · intro h c hc
    rw [List.dropWhile_eq_nil_iff.2 h] at hc
    exact absurd hc List.not_mem_nil

theorem dropReturn_subset (cs : List Char) : ∀ c ∈ dropReturn cs, c ∈ cs := by
  unfold dropReturn
  split
  · exact fun c hc => List.dropLast_subset cs hc
  · exact fun c hc => hc

/-- A blank line is blank without its carriage return too. -/
theorem isEmpty_trim_withoutReturn (h : (trim l).isEmpty = true) :
    (trim (withoutReturn l)).isEmpty = true := by
  rw [isEmpty_trim_iff] at h ⊢
  unfold withoutReturn
  rw [String.toList_ofList]
  exact fun c hc => h c (dropReturn_subset _ c hc)

/-- The second lines are the first with blank lines put before, between and after them. -/
inductive Spaced : List String → List String → Prop where
  | nil : Spaced [] []
  | keep (l : String) {ls ms : List String} : Spaced ls ms → Spaced (l :: ls) (l :: ms)
  | blank {l : String} {ls ms : List String} : (trim l).isEmpty = true → '\n' ∉ l.toList →
      Spaced ls ms → Spaced ls (l :: ms)

theorem Spaced.refl : ∀ ls : List String, Spaced ls ls
  | [] => .nil
  | l :: ls => .keep l (refl ls)

/-- No line holds a line feed if the first lines hold none. -/
theorem Spaced.newline_notMem (h : Spaced ls ms) (hls : ∀ l ∈ ls, '\n' ∉ l.toList) :
    ∀ m ∈ ms, '\n' ∉ m.toList := by
  induction h with
  | nil => exact hls
  | keep l _ ih =>
    intro m hm
    rcases List.mem_cons.1 hm with rfl | hm
    · exact hls m List.mem_cons_self
    · exact ih (fun k hk => hls k (List.mem_cons_of_mem l hk)) m hm
  | blank _ hl _ ih =>
    intro m hm
    rcases List.mem_cons.1 hm with rfl | hm
    · exact hl
    · exact ih hls m hm

/-- Carriage returns at the ends of the lines make no difference where the first lines have none. -/
theorem Spaced.map_withoutReturn (h : Spaced ls ms) (hls : ∀ l ∈ ls, withoutReturn l = l) :
    Spaced ls (ms.map withoutReturn) := by
  induction h with
  | nil => exact .nil
  | keep l _ ih =>
    rw [List.map_cons, hls l List.mem_cons_self]
    exact .keep l (ih fun k hk => hls k (List.mem_cons_of_mem l hk))
  | blank hblank hl _ ih =>
    refine .blank (isEmpty_trim_withoutReturn hblank) (fun hn => hl ?_) (ih hls)
    unfold withoutReturn at hn
    rw [String.toList_ofList] at hn
    exact dropReturn_subset _ _ hn

end TreeCorpus.Text
