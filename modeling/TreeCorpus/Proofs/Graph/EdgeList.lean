import TreeCorpus.Error
import TreeCorpus.Proofs.Graph.Pairs

/-!
# Reading edge lists

The words of the lines decide what an edge list means. Reading keeps the graph of the pairs read so
far, so a line repeats an edge exactly when an earlier line holds the same two words. The text is
read when no line has a fault and one holds an edge; otherwise the first fault is reported
(`parse_exact`).
-/

namespace TreeCorpus.Graph

/-! ## Rows of words -/

/-- The words of each line of a text. -/
def rows (text : String) : List (List String) := (Text.lines text).map Text.words

/-- The pair of a row of two words. -/
def pair? : List String → Option (String × String)
  | [p, c] => some (p, c)
  | _ => none

/-- The pairs of the rows of two words, in order. -/
def pairs (rs : List (List String)) : List (String × String) := rs.filterMap pair?

/-- Every row is blank or a pair of two names, no pair is repeated, and there is one. -/
structure ListsEdges (rs : List (List String)) : Prop where
  blank_or_pair : ∀ ws ∈ rs, ws.length = 0 ∨ ws.length = 2
  ne_of_mem : ∀ e ∈ pairs rs, e.1 ≠ e.2
  nodup : (pairs rs).Nodup
  exists_pair : ∃ ws ∈ rs, ws.length = 2

instance (rs : List (List String)) : Decidable (ListsEdges rs) :=
  decidable_of_iff
    ((∀ ws ∈ rs, ws.length = 0 ∨ ws.length = 2) ∧ (∀ e ∈ pairs rs, e.1 ≠ e.2) ∧ (pairs rs).Nodup ∧
      ∃ ws ∈ rs, ws.length = 2)
    ⟨fun h => ⟨h.1, h.2.1, h.2.2.1, h.2.2.2⟩,
      fun h => ⟨h.blank_or_pair, h.ne_of_mem, h.nodup, h.exists_pair⟩⟩

theorem pair?_eq_some_iff {ws : List String} {p c : String} :
    pair? ws = some (p, c) ↔ ws = [p, c] := by
  constructor
  · intro h
    unfold pair? at h
    split at h
    · obtain ⟨rfl, rfl⟩ := Prod.mk.inj (Option.some.inj h)
      rfl
    · exact absurd h (by simp)
  · rintro rfl
    rfl

theorem pair?_eq_none_iff {ws : List String} : pair? ws = none ↔ ws.length ≠ 2 := by
  constructor
  · intro h hl
    obtain ⟨p, c, rfl⟩ := List.length_eq_two.1 hl
    exact absurd h (by simp [pair?])
  · intro h
    unfold pair?
    split
    · exact absurd rfl h
    · rfl

theorem mem_pairs_iff {rs : List (List String)} {p c : String} :
    (p, c) ∈ pairs rs ↔ [p, c] ∈ rs := by
  unfold pairs
  rw [List.mem_filterMap]
  constructor
  · rintro ⟨ws, hm, hp⟩
    exact pair?_eq_some_iff.1 hp ▸ hm
  · intro hm
    exact ⟨[p, c], hm, rfl⟩

theorem pairs_eq_nil_iff {rs : List (List String)} :
    pairs rs = [] ↔ ∀ ws ∈ rs, ws.length ≠ 2 := by
  unfold pairs
  rw [List.filterMap_eq_nil_iff]
  exact forall₂_congr fun _ _ => pair?_eq_none_iff

theorem pairs_concat (rs : List (List String)) (ws : List String) :
    pairs (rs ++ [ws]) = pairs rs ++ (pair? ws).toList := by
  rw [pairs, List.filterMap_append, pairs]
  cases h : pair? ws <;> simp [h]

/-- Blank rows hold no pair. -/
theorem pairs_filter (rs : List (List String)) : pairs (rs.filter (· ≠ [])) = pairs rs := by
  rw [pairs, List.filterMap_filter, pairs]
  apply List.filterMap_congr
  intro ws _
  cases ws <;> rfl

/-- The words of rows that list edges are those of their pairs. -/
theorem flatMap_pairs {rs : List (List String)}
    (h : ∀ ws ∈ rs, ws.length = 0 ∨ ws.length = 2) :
    (pairs rs).flatMap (fun e => [e.1, e.2]) = rs.flatten := by
  induction rs with
  | nil => rfl
  | cons ws rs ih =>
    have ih' := ih fun ws' hws => h ws' (List.mem_cons_of_mem _ hws)
    rw [List.flatten_cons, ← ih', pairs, List.filterMap_cons]
    rcases h ws List.mem_cons_self with hl | hl
    · obtain rfl := List.length_eq_zero_iff.1 hl
      rfl
    · obtain ⟨p, c, rfl⟩ := List.length_eq_two.1 hl
      rfl

/-- Whether the rows list edges does not depend on blank rows. -/
theorem listsEdges_filter_iff {rs : List (List String)} :
    ListsEdges (rs.filter (· ≠ [])) ↔ ListsEdges rs := by
  have hmem {ws : List String} : ws ∈ rs.filter (· ≠ []) ↔ ws ∈ rs ∧ ws ≠ [] := by simp
  constructor
  · rintro ⟨h1, h2, h3, ws, hm, hl⟩
    rw [pairs_filter] at h2 h3
    refine ⟨fun ws hws => ?_, h2, h3, ws, (hmem.1 hm).1, hl⟩
    by_cases he : ws = []
    · exact Or.inl (by rw [he]; rfl)
    · exact h1 ws (hmem.2 ⟨hws, he⟩)
  · rintro ⟨h1, h2, h3, ws, hm, hl⟩
    rw [← pairs_filter] at h2 h3
    refine ⟨fun ws hws => h1 ws (hmem.1 hws).1, h2, h3, ws, hmem.2 ⟨hm, ?_⟩, hl⟩
    rintro rfl
    exact absurd hl (by simp)

/-! ## Faults -/

/-- What is wrong with a line that follows the given ones. -/
inductive Offends (before : List String) (line : String) : EdgeFault → Prop where
  | notAPair : Text.words line ≠ [] → (Text.words line).length ≠ 2 →
      Offends before line (.notAPair (Text.trim line))
  | selfLoop {p : String} : Text.words line = [p, p] → Offends before line (.selfLoop p)
  | duplicate {p c : String} : Text.words line = [p, c] → p ≠ c →
      (∃ earlier ∈ before, Text.words earlier = [p, c]) → Offends before line (.duplicate p c)

/-- No line has a fault. -/
def Faultless (lines : List String) : Prop :=
  ∀ before line after fault, lines = before ++ line :: after → ¬ Offends before line fault

/-- Line number `n`, counted from one, is the first one with a fault. -/
def FirstFault (lines : List String) (n : Nat) (fault : EdgeFault) : Prop :=
  ∃ before line after, lines = before ++ line :: after ∧ n = before.length + 1 ∧
    Faultless before ∧ Offends before line fault

theorem faultless_nil : Faultless [] := by
  intro before line after fault h
  exact absurd h (by simp)

theorem faultless_concat_iff {lines : List String} {line : String} :
    Faultless (lines ++ [line]) ↔ Faultless lines ∧ ∀ fault, ¬ Offends lines line fault := by
  constructor
  · intro h
    refine ⟨fun before l after fault e => ?_, fun fault => h lines line [] fault rfl⟩
    exact h before l (after ++ [line]) fault (by rw [e, List.append_assoc, List.cons_append])
  · rintro ⟨h, hline⟩ before l after fault e
    rcases List.eq_nil_or_concat after with rfl | ⟨after', l', rfl⟩
    · obtain ⟨rfl, hl⟩ := List.append_inj' e rfl
      obtain rfl : line = l := (List.cons.inj hl).1
      exact hline fault
    · rw [List.concat_eq_append, ← List.cons_append, ← List.append_assoc] at e
      obtain ⟨rfl, -⟩ := List.append_inj' e rfl
      exact h before l after' fault rfl

/-- A line has no fault when it is blank or a new pair of two names. -/
theorem not_offends_iff {before : List String} {line : String} :
    (∀ fault, ¬ Offends before line fault) ↔ Text.words line = [] ∨
      ∃ p c, Text.words line = [p, c] ∧ p ≠ c ∧ [p, c] ∉ before.map Text.words := by
  have hmap {p c : String} : [p, c] ∈ before.map Text.words ↔
      ∃ earlier ∈ before, Text.words earlier = [p, c] := List.mem_map
  constructor
  · intro h
    by_cases hnil : Text.words line = []
    · exact Or.inl hnil
    · by_cases hl : (Text.words line).length = 2
      · obtain ⟨p, c, hw⟩ := List.length_eq_two.1 hl
        have hne : p ≠ c := by
          rintro rfl
          exact h _ (.selfLoop hw)
        exact Or.inr ⟨p, c, hw, hne, fun hm => h _ (.duplicate hw hne (hmap.1 hm))⟩
      · exact absurd (.notAPair hnil hl) (h _)
  · rintro (hw | ⟨p, c, hw, hne, hnew⟩) fault hf
    · cases hf with
      | notAPair hnil _ => exact hnil hw
      | selfLoop hw' => simp [hw] at hw'
      | duplicate hw' _ _ => simp [hw] at hw'
    · cases hf with
      | notAPair _ hl => exact hl (by rw [hw]; rfl)
      | selfLoop hw' =>
        obtain ⟨rfl, hc⟩ := List.cons.inj (hw.symm.trans hw')
        exact hne (List.cons.inj hc).1.symm
      | duplicate hw' _ hdup =>
        obtain ⟨rfl, hc⟩ := List.cons.inj (hw.symm.trans hw')
        obtain ⟨rfl, -⟩ := List.cons.inj hc
        exact hnew (hmap.2 hdup)

/-- A list of lines has no fault or a first one. -/
theorem faultless_or_firstFault (lines : List String) :
    Faultless lines ∨ ∃ n fault, FirstFault lines n fault := by
  induction lines using List.reverseRecOn with
  | nil => exact Or.inl faultless_nil
  | append_singleton lines line ih =>
    rcases ih with h | ⟨n, fault, before, l, after, rfl, hn, hb, hl⟩
    · by_cases hf : ∃ fault, Offends lines line fault
      · obtain ⟨fault, hf⟩ := hf
        exact Or.inr ⟨_, fault, lines, line, [], rfl, rfl, h, hf⟩
      · exact Or.inl (faultless_concat_iff.2 ⟨h, not_exists.1 hf⟩)
    · exact Or.inr ⟨n, fault, before, l, after ++ [line],
        by rw [List.append_assoc, List.cons_append], hn, hb, hl⟩

/-! ## Reading lines -/

/-- The graph of the pairs of some lines. -/
def ofLines (lines : List String) : Graph := ofPairs (pairs (lines.map Text.words))

theorem ofLines_concat (lines : List String) (line : String) :
    ofLines (lines ++ [line]) = match pair? (Text.words line) with
      | some e => (ofLines lines).insertEdge e.1 e.2
      | none => ofLines lines := by
  rw [ofLines, List.map_append, List.map_singleton, pairs_concat]
  cases pair? (Text.words line) with
  | none => rw [Option.toList_none, List.append_nil, ofLines]
  | some e => exact ofPairs_concat _ e.1 e.2

/-- The graph of some lines contains an edge exactly when one of them holds its two words. -/
theorem containsEdge_ofLines_iff {lines : List String} {p c : String} :
    (ofLines lines).containsEdge p c = true ↔ ∃ line ∈ lines, Text.words line = [p, c] := by
  rw [ofLines, (built_ofPairs _).linked.containsEdge_iff, edgeIds_ofPairs, mem_pairs_iff,
    List.mem_map]

theorem readLine_of_offends {before : List String} {line : String} {fault : EdgeFault}
    (h : Offends before line fault) : (ofLines before).readLine line = .error fault := by
  unfold readLine
  cases h with
  | notAPair hne hl =>
    split
    · contradiction
    · rename_i hw
      rw [hw] at hl
      exact absurd rfl hl
    · rfl
  | selfLoop hw => rw [hw]; exact if_pos rfl
  | duplicate hw hne hdup =>
    simp only [hw]
    rw [if_neg hne, if_pos (containsEdge_ofLines_iff.2 hdup)]

theorem readLine_of_not_offends {before : List String} {line : String}
    (h : ∀ fault, ¬ Offends before line fault) :
    (ofLines before).readLine line = .ok (ofLines (before ++ [line])) := by
  rw [ofLines_concat, readLine]
  split
  · rename_i hw
    rw [hw]
    rfl
  · rename_i p c hw
    have hne : p ≠ c := by
      rintro rfl
      exact h _ (.selfLoop hw)
    have hnew : ¬ (ofLines before).containsEdge p c = true := fun hc =>
      h _ (.duplicate hw hne (containsEdge_ofLines_iff.1 hc))
    rw [hw, if_neg hne, if_neg hnew]
    rfl
  · rename_i hnil hpair
    refine absurd (.notAPair hnil fun hl => ?_) (h _)
    obtain ⟨p, c, hw⟩ := List.length_eq_two.1 hl
    exact hpair p c hw

theorem readLines_append (g : Graph) (n : Nat) (xs ys : List String) :
    g.readLines n (xs ++ ys) = match g.readLines n xs with
      | .ok g' => g'.readLines (n + xs.length) ys
      | .error fault => .error fault := by
  induction xs generalizing g n with
  | nil => rfl
  | cons x xs ih =>
    rw [List.cons_append, readLines, readLines]
    cases g.readLine x with
    | ok g' =>
      simp only [ih g' (n + 1), List.length_cons]
      rw [show n + 1 + xs.length = n + (xs.length + 1) by omega]
    | error fault => rfl

/-- Lines without a fault give the graph of their pairs. -/
theorem readLines_of_faultless {lines : List String} (h : Faultless lines) :
    empty.readLines 1 lines = .ok (ofLines lines) := by
  induction lines using List.reverseRecOn with
  | nil => rfl
  | append_singleton lines line ih =>
    obtain ⟨hb, hl⟩ := faultless_concat_iff.1 h
    rw [readLines_append, ih hb]
    simp only [readLines, readLine_of_not_offends hl]

/-- The first fault stops the reading, whatever follows it. -/
theorem readLines_of_firstFault {lines : List String} {n : Nat} {fault : EdgeFault}
    (h : FirstFault lines n fault) : empty.readLines 1 lines = .error (.atLine n fault) := by
  obtain ⟨before, line, after, rfl, rfl, hb, hl⟩ := h
  rw [readLines_append, readLines_of_faultless hb]
  simp only [readLines, readLine_of_offends hl]
  rw [Nat.add_comm]

/-! ## Reading edge lists -/

theorem isEmpty_edges_ofLines (lines : List String) :
    (ofLines lines).edges.isEmpty = true ↔ pairs (lines.map Text.words) = [] := by
  have hlen := (built_ofPairs (pairs (lines.map Text.words))).linked.length_edgeIds
  rw [edgeIds_ofPairs] at hlen
  rw [Array.isEmpty_iff_size_eq_zero, ofLines, ← hlen, List.length_eq_zero_iff]

/-- Lines have no fault when all are blank or pairs of two names and no pair is repeated. -/
theorem faultless_iff {lines : List String} :
    Faultless lines ↔ (∀ ws ∈ lines.map Text.words, ws.length = 0 ∨ ws.length = 2) ∧
      (∀ e ∈ pairs (lines.map Text.words), e.1 ≠ e.2) ∧
      (pairs (lines.map Text.words)).Nodup := by
  induction lines using List.reverseRecOn with
  | nil => exact ⟨fun _ => ⟨by simp, by simp [pairs], List.nodup_nil⟩, fun _ => faultless_nil⟩
  | append_singleton lines line ih =>
    rw [faultless_concat_iff, ih, not_offends_iff, List.map_append, List.map_singleton,
      pairs_concat]
    generalize lines.map Text.words = rs
    generalize Text.words line = ws
    rcases ws with _ | ⟨p, _ | ⟨c, _ | ⟨d, rest⟩⟩⟩
    · simp [pair?, or_imp, forall_and]
    · simp [pair?, or_imp, forall_and]
    · have hmem : (p, c) ∈ pairs rs ↔ [p, c] ∈ rs := mem_pairs_iff
      simp only [pair?, Option.toList_some, List.nodup_append, List.mem_append,
        List.mem_singleton]
      grind
    · simp [pair?, or_imp, forall_and]

theorem listsEdges_iff {lines : List String} :
    ListsEdges (lines.map Text.words) ↔
      Faultless lines ∧ pairs (lines.map Text.words) ≠ [] := by
  rw [faultless_iff, Ne, pairs_eq_nil_iff]
  constructor
  · rintro ⟨h1, h2, h3, ws, hm, hl⟩
    exact ⟨⟨h1, h2, h3⟩, fun h => h ws hm hl⟩
  · rintro ⟨⟨h1, h2, h3⟩, h⟩
    simp only [not_forall, not_not] at h
    obtain ⟨ws, hm, hl⟩ := h
    exact ⟨h1, h2, h3, ws, hm, hl⟩

theorem parse_of_listsEdges {text : String} (origin : String) (h : ListsEdges (rows text)) :
    Graph.parse text origin = .ok (ofPairs (pairs (rows text))) := by
  obtain ⟨hf, hne⟩ := listsEdges_iff.1 h
  have hedges : ¬ (ofLines (Text.lines text)).edges.isEmpty = true := fun he =>
    hne ((isEmpty_edges_ofLines _).1 he)
  unfold Graph.parse ofEdgeList
  rw [readLines_of_faultless hf]
  simp only [if_neg hedges]
  rfl

theorem parse_of_firstFault {text : String} (origin : String) {n : Nat} {fault : EdgeFault}
    (h : FirstFault (Text.lines text) n fault) :
    Graph.parse text origin = .error (.malformedGraph origin (.atLine n fault)) := by
  unfold Graph.parse ofEdgeList
  rw [readLines_of_firstFault h]
  rfl

theorem parse_of_noEdges {text : String} (origin : String) (h : Faultless (Text.lines text))
    (hp : pairs (rows text) = []) :
    Graph.parse text origin = .error (.malformedGraph origin .noEdges) := by
  unfold Graph.parse ofEdgeList
  rw [readLines_of_faultless h]
  simp only [if_pos ((isEmpty_edges_ofLines _).2 hp)]
  rfl

/-- A text is an edge list, has a first fault, or has no fault and no edge. -/
theorem listsEdges_or (text : String) :
    ListsEdges (rows text) ∨ (∃ n fault, FirstFault (Text.lines text) n fault) ∨
      Faultless (Text.lines text) ∧ pairs (rows text) = [] := by
  rcases faultless_or_firstFault (Text.lines text) with h | h
  · by_cases hp : pairs (rows text) = []
    · exact Or.inr (Or.inr ⟨h, hp⟩)
    · exact Or.inl (listsEdges_iff.2 ⟨h, hp⟩)
  · exact Or.inr (Or.inl h)

/-- A text that is read gives the graph of its pairs. -/
theorem parse_eq_ok_iff {text origin : String} {g : Graph} :
    Graph.parse text origin = .ok g ↔ ListsEdges (rows text) ∧ g = ofPairs (pairs (rows text)) := by
  constructor
  · intro hg
    rcases listsEdges_or text with h | ⟨n, fault, h⟩ | ⟨h, hp⟩
    · rw [parse_of_listsEdges origin h] at hg
      exact ⟨h, (Except.ok.inj hg).symm⟩
    · rw [parse_of_firstFault origin h] at hg
      exact absurd hg (by simp)
    · rw [parse_of_noEdges origin h hp] at hg
      exact absurd hg (by simp)
  · rintro ⟨h, rfl⟩
    exact parse_of_listsEdges origin h

/-- The nodes are the words of the text, in the order in which they first appear. -/
theorem ids_of_parse {text origin : String} {g : Graph} (h : Graph.parse text origin = .ok g) :
    g.ids = (rows text).flatten.eraseDups := by
  obtain ⟨hlists, rfl⟩ := parse_eq_ok_iff.1 h
  rw [ids_ofPairs, flatMap_pairs hlists.blank_or_pair]

theorem parse_eq_error_iff {text origin : String} {e : Error} :
    Graph.parse text origin = .error e ↔
      (∃ n fault, FirstFault (Text.lines text) n fault ∧
        e = .malformedGraph origin (.atLine n fault)) ∨
      (Faultless (Text.lines text) ∧ pairs (rows text) = [] ∧
        e = .malformedGraph origin .noEdges) := by
  constructor
  · intro he
    rcases listsEdges_or text with h | ⟨n, fault, h⟩ | ⟨h, hp⟩
    · rw [parse_of_listsEdges origin h] at he
      exact absurd he (by simp)
    · rw [parse_of_firstFault origin h] at he
      exact Or.inl ⟨n, fault, h, (Except.error.inj he).symm⟩
    · rw [parse_of_noEdges origin h hp] at he
      exact Or.inr ⟨h, hp, (Except.error.inj he).symm⟩
  · rintro (⟨n, fault, h, rfl⟩ | ⟨h, hp, rfl⟩)
    · exact parse_of_firstFault origin h
    · exact parse_of_noEdges origin h hp

/-- Reading a text is decided by its rows of words: it succeeds exactly when they list edges, with
their pairs as edges and their words as nodes, and otherwise reports the first fault. Blank rows
make no difference to the graph. -/
theorem parse_exact (text origin : String) :
    ((∃ g, Graph.parse text origin = .ok g) ↔ ListsEdges (rows text)) ∧
    (∀ g, Graph.parse text origin = .ok g →
      g.edgeIds = pairs (rows text) ∧ g.ids = (rows text).flatten.eraseDups) ∧
    (∀ e, Graph.parse text origin = .error e ↔
      (∃ n fault, FirstFault (Text.lines text) n fault ∧
        e = .malformedGraph origin (.atLine n fault)) ∨
      (Faultless (Text.lines text) ∧ pairs (rows text) = [] ∧
        e = .malformedGraph origin .noEdges)) ∧
    EdgeListFault.noEdges.message = "edge list is empty" ∧
    ∀ text' origin', (rows text').filter (· ≠ []) = (rows text).filter (· ≠ []) →
      ∀ g, Graph.parse text origin = .ok g → Graph.parse text' origin' = .ok g := by
  refine ⟨⟨?_, fun h => ⟨_, parse_of_listsEdges origin h⟩⟩, ?_, fun e => parse_eq_error_iff, rfl, ?_⟩
  · rintro ⟨g, hg⟩
    exact (parse_eq_ok_iff.1 hg).1
  · intro g hg
    obtain ⟨h, rfl⟩ := parse_eq_ok_iff.1 hg
    rw [edgeIds_ofPairs, ids_ofPairs, flatMap_pairs h.blank_or_pair]
    exact ⟨rfl, rfl⟩
  · intro text' origin' hrows g hg
    obtain ⟨h, rfl⟩ := parse_eq_ok_iff.1 hg
    rw [← listsEdges_filter_iff, ← hrows, listsEdges_filter_iff] at h
    rw [← pairs_filter, ← hrows, pairs_filter]
    exact parse_of_listsEdges origin' h

end TreeCorpus.Graph
