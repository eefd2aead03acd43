import TreeCorpus.Proofs.Text.Lines

/-!
# Words that are written and read

A word is not empty and holds no blank. The words of a text in which a space stands before each word
are these words (`words_spaced`), and a text that neither starts nor ends with a blank is left as it
is by `trim` (`trim_eq_self`).
-/

namespace TreeCorpus.Text

variable {s : String} {ws : List String}

/-- A text that is one word. -/
structure IsWord (w : String) : Prop where
  ne_nil : w.toList ≠ []
  not_blank : ∀ c ∈ w.toList, isBlank c = false

/-- The words, each with a space before it. -/
def spaced (ws : List String) : String := String.join (ws.map (" " ++ ·))

@[simp] theorem toList_spaced_nil : (spaced []).toList = [] := rfl

@[simp] theorem toList_spaced_cons (w : String) (ws : List String) :
    (spaced (w :: ws)).toList = ' ' :: w.toList ++ (spaced ws).toList := by
  simp [spaced, String.join_cons, String.toList_append]

/-! ## Cutting into words -/

/-- What is spaced adds its words as pieces. -/
theorem pieces_append_spaced (h : ∀ w ∈ ws, IsWord w) (cs : List Char) :
    pieces isBlank (cs ++ (spaced ws).toList) = pieces isBlank cs ++ ws.map String.toList := by
  induction ws generalizing cs with
  | nil => simp
  | cons w ws ih =>
    obtain ⟨hw, hws⟩ := List.forall_mem_cons.1 h
    rw [toList_spaced_cons, List.cons_append, pieces_append_cons isBlank_space, ih hws,
      pieces_of_not_separates hw.not_blank]
    rfl

theorem words_spaced (h : ∀ w ∈ ws, IsWord w) : words (spaced ws) = ws := by
  have hpieces := pieces_append_spaced h []
  have hne : (ws.map String.toList).filter (fun cs => !cs.isEmpty) = ws.map String.toList := by
    rw [List.filter_eq_self]
    intro cs hcs
    obtain ⟨w, hw, rfl⟩ := List.mem_map.1 hcs
    simpa using (h w hw).ne_nil
  unfold words
  rw [List.nil_append] at hpieces
  rw [hpieces, List.filter_append, hne, pieces_nil, List.map_append, List.map_map]
  have hid : String.ofList ∘ String.toList = id := by
    funext w
    exact String.ofList_toList
  rw [hid, List.map_id]
  rfl

/-! ## Trimming -/

/-- A text with no blank at its two ends is trimmed already. -/
theorem trim_eq_self (hhead : ∀ c, s.toList.head? = some c → isBlank c = false)
    (hlast : ∀ c, s.toList.getLast? = some c → isBlank c = false) : trim s = s := by
  have hkeep {cs : List Char} (h : ∀ c, cs.head? = some c → isBlank c = false) :
      cs.dropWhile isBlank = cs := by
    cases cs with
    | nil => rfl
    | cons c cs => exact List.dropWhile_cons_of_neg (by simp [h c rfl])
  unfold trim
  rw [hkeep hhead, hkeep (by rwa [List.head?_reverse]), List.reverse_reverse,
    String.ofList_toList]

theorem IsWord.trim_eq {w : String} (h : IsWord w) : trim w = w := by
  apply trim_eq_self
  · intro c hc
    exact h.not_blank c (List.mem_of_mem_head? hc)
  · intro c hc
    exact h.not_blank c (List.mem_of_getLast? hc)

/-- Trimming only takes characters away. -/
theorem mem_of_mem_trim {c : Char} (h : c ∈ (trim s).toList) : c ∈ s.toList := by
  unfold trim at h
  rw [String.toList_ofList, List.mem_reverse] at h
  have hdropped := (List.dropWhile_sublist isBlank).subset h
  rw [List.mem_reverse] at hdropped
  exact (List.dropWhile_sublist isBlank).subset hdropped

end TreeCorpus.Text
