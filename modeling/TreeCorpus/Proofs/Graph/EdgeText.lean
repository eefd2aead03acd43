import TreeCorpus.Proofs.Graph.EdgeList
import TreeCorpus.Proofs.Text.Words

/-!
# Edge lists that are written

Pairs of names are written one a line, with a space between the two names. If the names are words,
no pair is repeated and none joins a name to itself, the text lists exactly these pairs
(`parse_textOfPairs`); so the edges of a graph that was read, written down, are read as the same
graph (`parse_textOfPairs_edgeIds`).
-/

namespace TreeCorpus

namespace Text

variable {p c : String}

/-- A space at the start adds no word. -/
theorem words_space_append (s : String) : words (" " ++ s) = words s := by
  have hlist : (" " ++ s).toList = ' ' :: s.toList := by
    rw [String.toList_append]
    rfl
  unfold words
  rw [hlist, pieces_cons_of_separates isBlank_space]
  rfl

theorem words_pair (hp : IsWord p) (hc : IsWord c) : words (p ++ " " ++ c) = [p, c] := by
  have hspaced : " " ++ (p ++ " " ++ c) = spaced [p, c] := by
    apply String.toList_inj.1
    simp
  rw [← words_space_append, hspaced]
  exact words_spaced (List.forall_mem_cons.2 ⟨hp, List.forall_mem_singleton.2 hc⟩)

end Text

namespace Graph

variable {g : Graph} {text origin : String} {ps : List (String × String)}

theorem isWord_of_mem_rows {ws : List String} (h : ws ∈ rows text) {w : String} (hw : w ∈ ws) :
    Text.IsWord w := by
  obtain ⟨line, -, rfl⟩ := List.mem_map.1 h
  obtain ⟨hne, hblank⟩ := Text.of_mem_words hw
  exact ⟨hne, hblank⟩

/-- Every node of an edge list is named by one of its words. -/
theorem isWord_of_mem_ids (h : Graph.parse text origin = .ok g) {id : String} (hid : id ∈ g.ids) :
    Text.IsWord id := by
  obtain ⟨-, rfl⟩ := parse_eq_ok_iff.1 h
  rw [ids_ofPairs, List.mem_eraseDups, List.mem_flatMap] at hid
  obtain ⟨e, he, hid⟩ := hid
  exact isWord_of_mem_rows (mem_pairs_iff.1 he) hid

/-! ## Written pairs -/

/-- One line a pair, with a space between its names. -/
def textOfPairs (ps : List (String × String)) : String :=
  Text.unlines (ps.map fun e => e.1 ++ " " ++ e.2)

/-- The rows of the text are the pairs. -/
theorem rows_textOfPairs (h : ∀ e ∈ ps, Text.IsWord e.1 ∧ Text.IsWord e.2) :
    rows (textOfPairs ps) = ps.map fun e => [e.1, e.2] := by
  -- a line feed and a carriage return are blanks other than the space in the line
  have hline {l : String} (hl : l ∈ ps.map fun e => e.1 ++ " " ++ e.2) :
      ∀ c ∈ l.toList, c = ' ' ∨ Text.isBlank c = false := by
    obtain ⟨e, he, rfl⟩ := List.mem_map.1 hl
    obtain ⟨hp, hc⟩ := h e he
    intro c hmem
    rw [String.toList_append, String.toList_append, List.mem_append, List.mem_append] at hmem
    rcases hmem with (hmem | hmem) | hmem
    · exact Or.inr (hp.not_blank c hmem)
    · exact Or.inl (List.mem_singleton.1 hmem)
    · exact Or.inr (hc.not_blank c hmem)
  have hlines : Text.lines (textOfPairs ps) = ps.map fun e => e.1 ++ " " ++ e.2 := by
    apply Text.lines_unlines_eq_self
    · intro l hl hmem
      exact absurd (hline hl _ hmem) (by decide)
    · intro l hl
      apply Text.withoutReturn_eq_self
      intro hlast
      exact absurd (hline hl _ (List.mem_of_getLast? hlast)) (by decide)
  unfold rows
  rw [hlines, List.map_map]
  apply List.map_congr_left
  intro e he
  exact Text.words_pair (h e he).1 (h e he).2

theorem pairs_map_pair (ps : List (String × String)) : pairs (ps.map fun e => [e.1, e.2]) = ps := by
  unfold pairs
  rw [List.filterMap_map]
  exact List.filterMap_some

/-- Distinct pairs of distinct words are read back from their text. -/
theorem parse_textOfPairs (origin : String) (hwords : ∀ e ∈ ps, Text.IsWord e.1 ∧ Text.IsWord e.2)
    (hne : ∀ e ∈ ps, e.1 ≠ e.2) (hnodup : ps.Nodup) (hps : ps ≠ []) :
    Graph.parse (textOfPairs ps) origin = .ok (ofPairs ps) := by
  rw [parse_eq_ok_iff, rows_textOfPairs hwords, pairs_map_pair]
  obtain ⟨e, he⟩ := List.exists_mem_of_ne_nil ps hps
  refine ⟨⟨fun ws hws => ?_, ?_, ?_, [e.1, e.2], List.mem_map_of_mem he, rfl⟩, rfl⟩
  · obtain ⟨e, -, rfl⟩ := List.mem_map.1 hws
    exact Or.inr rfl
  · rwa [pairs_map_pair]
  · rwa [pairs_map_pair]

/-- The edges of a graph that was read are read back as this graph. -/
theorem parse_textOfPairs_edgeIds (h : Graph.parse text origin = .ok g) (origin' : String) :
    Graph.parse (textOfPairs g.edgeIds) origin' = .ok g := by
  obtain ⟨hlists, rfl⟩ := parse_eq_ok_iff.1 h
  rw [edgeIds_ofPairs]
  apply parse_textOfPairs origin' _ hlists.ne_of_mem hlists.nodup
  · obtain ⟨ws, hws, hlength⟩ := hlists.exists_pair
    intro hnil
    exact pairs_eq_nil_iff.1 hnil ws hws hlength
  · rintro ⟨p, c⟩ he
    have hrow := mem_pairs_iff.1 he
    exact ⟨isWord_of_mem_rows hrow (by simp), isWord_of_mem_rows hrow (by simp)⟩

end Graph

end TreeCorpus
