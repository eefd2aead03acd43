/-!
# Blanks, words and lines

A character is blank exactly when it has the Unicode property `White_Space`. A text is cut into
lines at line feeds and each line into words at blanks; `trim` removes the blanks at both ends.
-/

namespace TreeCorpus.Text

/-- The code point ranges of the Unicode property `White_Space`, in order. -/
def blankRanges : List (Nat × Nat) :=
  [(0x9, 0xD), (0x20, 0x20), (0x85, 0x85), (0xA0, 0xA0), (0x1680, 0x1680), (0x2000, 0x200A),
    (0x2028, 0x2029), (0x202F, 0x202F), (0x205F, 0x205F), (0x3000, 0x3000)]

def isBlank (c : Char) : Bool :=
  blankRanges.any fun r => r.1 ≤ c.toNat && c.toNat ≤ r.2

theorem isBlank_space : isBlank ' ' = true := by decide

/-- The pieces between the separators; there is one more of them than of separators. -/
def pieces {α : Type} (separates : α → Bool) (cs : List α) : List (List α) :=
  cs.foldr
    (fun c acc =>
      if separates c then [] :: acc
      else match acc with
        | [] => [[c]]
        | w :: ws => (c :: w) :: ws)
    [[]]

variable {α : Type}

@[simp] theorem pieces_nil (p : α → Bool) : pieces p [] = [[]] := rfl

theorem pieces_ne_nil (p : α → Bool) (cs : List α) : pieces p cs ≠ [] := by
  induction cs with
  | nil => simp
  | cons c cs ih =>
    simp only [pieces, List.foldr_cons]
    split
    · simp
    · split <;> simp

theorem pieces_cons_of_separates {p : α → Bool} {c : α} (h : p c = true) (cs : List α) :
    pieces p (c :: cs) = [] :: pieces p cs := by simp [pieces, h]

/-- A separator ends the pieces before it. -/
theorem pieces_append_cons {p : α → Bool} {c : α} (h : p c = true) (xs ys : List α) :
    pieces p (xs ++ c :: ys) = pieces p xs ++ pieces p ys := by
  induction xs with
  | nil => exact pieces_cons_of_separates h ys
  | cons x xs ih =>
    obtain ⟨w, ws, hw⟩ := List.exists_cons_of_ne_nil (pieces_ne_nil p xs)
    have hx : pieces p (x :: xs ++ c :: ys) =
        if p x then [] :: pieces p (xs ++ c :: ys)
        else match pieces p (xs ++ c :: ys) with
          | [] => [[x]]
          | w :: ws => (x :: w) :: ws := rfl
    have hy : pieces p (x :: xs) =
        if p x then [] :: pieces p xs
        else match pieces p xs with
          | [] => [[x]]
          | w :: ws => (x :: w) :: ws := rfl
    rw [hx, hy, ih, hw]
    split <;> rfl

/-- No piece holds a separator. -/
theorem not_separates_of_mem_pieces {p : α → Bool} {cs w : List α} (hw : w ∈ pieces p cs) :
    ∀ c ∈ w, p c = false := by
  induction cs generalizing w with
  | nil =>
    rw [pieces_nil, List.mem_singleton] at hw
    subst hw
    intro c hc
    exact absurd hc List.not_mem_nil
  | cons x xs ih =>
    obtain ⟨v, vs, hv⟩ := List.exists_cons_of_ne_nil (pieces_ne_nil p xs)
    have hx : pieces p (x :: xs) =
        if p x then [] :: pieces p xs
        else match pieces p xs with
          | [] => [[x]]
          | w :: ws => (x :: w) :: ws := rfl
    rw [hv] at hx ih
    rw [hx] at hw
    split at hw
    · rcases List.mem_cons.1 hw with rfl | hw
      · intro c hc
        exact absurd hc List.not_mem_nil
      · exact ih hw
    · rename_i hpx
      rcases List.mem_cons.1 hw with rfl | hw
      · intro c hc
        rcases List.mem_cons.1 hc with rfl | hc
        · exact Bool.eq_false_iff.2 hpx
        · exact ih (List.mem_cons_self ..) c hc
      · exact ih (List.mem_cons_of_mem _ hw)

def dropReturn (cs : List Char) : List Char :=
  if cs.getLast? = some '\r' then cs.dropLast else cs

/-- The lines of a text: a line feed, with a carriage return before it, ends a line, and nothing
after the last line feed is no line. -/
def lines (s : String) : List String :=
  let ps := pieces (· == '\n') s.toList
  let ended := ps.dropLast.map dropReturn
  let last := ps.getLast?.getD []
  (if last.isEmpty then ended else ended ++ [last]).map String.ofList

/-- The words of a text: its maximal runs of characters that are not blank. -/
def words (s : String) : List String :=
  ((pieces isBlank s.toList).filter (!·.isEmpty)).map String.ofList

theorem of_mem_words {s w : String} (hw : w ∈ words s) :
    w.toList ≠ [] ∧ ∀ c ∈ w.toList, isBlank c = false := by
  obtain ⟨cs, hcs, rfl⟩ := List.mem_map.1 hw
  obtain ⟨hp, hne⟩ := List.mem_filter.1 hcs
  rw [String.toList_ofList]
  exact ⟨by simpa using hne, not_separates_of_mem_pieces hp⟩

def trim (s : String) : String :=
  String.ofList (((s.toList.dropWhile isBlank).reverse.dropWhile isBlank).reverse)

end TreeCorpus.Text
