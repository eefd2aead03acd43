import TreeCorpus.Inference.Engine
import TreeCorpus.Proofs.Dataset.Sample
import TreeCorpus.Proofs.Graph.Building
import TreeCorpus.Proofs.Graph.FeatureTable
import TreeCorpus.Proofs.Inference.LinearHead
import TreeCorpus.Proofs.Ranking.Ranked

/-!
# Classifying an edge list

The categories of an edge list are ranked when every stage of the engine gives a value
(`classify_eq_ok_iff`). Over a linear head and a table that was built for the engine's dimension
this is a condition on the input alone (`Classifiable`): what the earlier stages make sure of rules
out that a row has a wrong length, that there are no rows, and that a ranked position has no name
(`classify_exact`).
-/

namespace TreeCorpus

open Number Ranking

/-! ## The rows of an annotated graph -/

namespace Graph

variable {text origin : String} {table : FeatureTable} {dimension : Nat} {g g' : Graph}

/-- With a table of the builder's dimension only the edge list and missing rows stop it. -/
theorem of_build_eq_error (ht : table.Built) {err : Error}
    (he : build text origin table table.dimension = .error err) :
    (∃ fault, err = .malformedGraph origin fault) ∨ ∃ node source, err = .missingFeature node source := by
  rcases build_eq_error_iff.1 he with hparse | ⟨g, -, hann⟩
  · rcases parse_eq_error_iff.1 hparse with ⟨n, fault, -, rfl⟩ | ⟨-, -, rfl⟩
    · exact Or.inl ⟨_, rfl⟩
    · exact Or.inl ⟨_, rfl⟩
  · obtain ⟨-, id, -, -, -, hmissing⟩ := annotate_eq_error_iff.1 hann
    cases hmissing with
    | none => exact Or.inr ⟨_, _, rfl⟩
    | length hv hlength => exact absurd (ht.length_of_lookup hv) hlength

/-- A built graph is a tree where the graph of its edge list is one. -/
theorem treeRoot_of_build (hparse : Graph.parse text origin = .ok g)
    (hbuild : build text origin table dimension = .ok g') {r : Nat} :
    g'.treeRoot = .ok r ↔ g.IsTreeAt r := by
  obtain ⟨g₀, hg₀, hann⟩ := build_eq_ok_iff.1 hbuild
  obtain rfl := Except.ok.inj (hparse.symm.trans hg₀)
  obtain ⟨hbuilt, hnodup⟩ := built_and_nodup_of_parse hparse
  rw [treeRoot_eq_ok_iff (hbuilt.annotate hann).linked, (annotates_of_annotate hann).rootedAt_iff,
    isTreeAt_iff_rootedAt hbuilt.linked hnodup]

/-- A built graph has rows, all of the dimension. -/
theorem rows_of_build (hbuild : build text origin table dimension = .ok g') :
    (Tensors.ofGraph g').rows ≠ [] ∧ ∀ row ∈ (Tensors.ofGraph g').rows, row.length = dimension := by
  obtain ⟨g, hparse, hann⟩ := build_eq_ok_iff.1 hbuild
  have hannotates := annotates_of_annotate hann
  constructor
  · have hpos := (built_of_build hbuild).2
    rw [← Array.length_toList] at hpos
    exact mt List.map_eq_nil_iff.1 (List.length_pos_iff.1 hpos)
  · intro row hrow
    obtain ⟨n, hn, rfl⟩ := List.mem_map.1 hrow
    exact (hannotates.features_eq n (Array.mem_toList_iff.1 hn)).2

end Graph

/-! ## The stages of an engine -/

namespace Engine

variable {e : Engine} {g : Graph} {edges : String} {table : FeatureTable} {ss : List Single}
  {ps : List (Prediction Single Double)}

theorem scores_eq_ok_iff :
    e.scores g = .ok ss ↔
      e.classifier (Tensors.ofGraph g) = .ok ss ∧ ss.length = e.names.length := by
  unfold scores
  cases hc : e.classifier (Tensors.ofGraph g) with
  | error fault => simp
  | ok ss' =>
    by_cases hlength : ss'.length = e.names.length
    · simp only [hlength, if_true, Except.ok.injEq]
      constructor
      · rintro rfl
        exact ⟨rfl, hlength⟩
      · exact And.left
    · simp only [hlength, if_false, reduceCtorEq, Except.ok.injEq, false_iff]
      rintro ⟨rfl, h⟩
      exact hlength h

theorem scores_eq_error_iff {fault : ClassifierFault} :
    e.scores g = .error fault ↔
      e.classifier (Tensors.ofGraph g) = .error fault ∨
        ∃ ss, e.classifier (Tensors.ofGraph g) = .ok ss ∧ ss.length ≠ e.names.length ∧
          fault = .scoreCount ss.length e.names.length := by
  unfold scores
  cases hc : e.classifier (Tensors.ofGraph g) with
  | error fault' => simp
  | ok ss =>
    by_cases hlength : ss.length = e.names.length
    · simp [hlength]
    · simp only [hlength, if_false, Except.error.injEq, Except.ok.injEq, reduceCtorEq, false_or]
      constructor
      · rintro rfl
        exact ⟨ss, rfl, hlength, rfl⟩
      · rintro ⟨_, rfl, -, rfl⟩
        rfl

/-- Every stage gives a value, and the last one is the result. -/
theorem classify_eq_ok_iff :
    e.classify edges table = .ok ps ↔
      ∃ g ss, Graph.buildInline edges table e.dimension = .ok g ∧ (∃ r, g.treeRoot = .ok r) ∧
        e.scores g = .ok ss ∧ rank ss e.topK e.names = .ok ps := by
  unfold classify
  cases Graph.buildInline edges table e.dimension with
  | error err => simp
  | ok g =>
    cases hr : g.treeRoot with
    | error v => simp [hr]
    | ok r =>
      cases hs : e.scores g with
      | error fault => simp [hr, hs]
      | ok ss => simp [hr, hs]

/-- One of the stages has the error of the result. -/
theorem classify_eq_error_iff {err : Error} :
    e.classify edges table = .error err ↔
      Graph.buildInline edges table e.dimension = .error err ∨
      ∃ g, Graph.buildInline edges table e.dimension = .ok g ∧
        ((∃ v, g.treeRoot = .error v ∧ err = .notATree v) ∨
          ∃ r, g.treeRoot = .ok r ∧
            ((∃ fault, e.scores g = .error fault ∧ err = .classifier fault) ∨
              ∃ ss, e.scores g = .ok ss ∧ rank ss e.topK e.names = .error err)) := by
  unfold classify
  cases Graph.buildInline edges table e.dimension with
  | error f => simp
  | ok g =>
    cases hr : g.treeRoot with
    | error v => simp [hr, eq_comm]
    | ok r =>
      cases hs : e.scores g with
      | error fault => simp [hr, hs, eq_comm]
      | ok ss => simp [hr, hs]

end Engine

/-! ## Linear heads -/

namespace LinearHead

/-- The engine of a head for graphs whose rows have the dimension. -/
def engine (h : LinearHead Single) (dimension : Nat) (names : List String) (topK : Nat) : Engine :=
  ⟨dimension, h.classifier, names, topK⟩

/-- The edge list is a tree with a row for each node, the head takes such rows and has a score for
each name, as many names as asked for can be ranked, and all scores are finite. -/
structure Classifies (h : LinearHead Single) (dimension : Nat) (names : List String) (topK : Nat)
    (edges : String) (table : FeatureTable) : Prop where
  exists_tree : ∃ g, Graph.parse edges Graph.inlineOrigin = .ok g ∧
    (∀ id ∈ g.ids, ∃ v, table.lookup id = some v) ∧ ∃ r, g.IsTreeAt r
  inputDimension_eq : h.inputDimension = dimension
  outputDimension_eq : h.outputDimension = names.length
  one_le_topK : 1 ≤ topK
  topK_le : topK ≤ names.length
  isFinite : ∀ g, Graph.buildInline edges table dimension = .ok g → ∀ ss,
    h.scores (Tensors.ofGraph g).rows = .ok ss → ∀ s ∈ ss, s.isFinite = true

variable {h : LinearHead Single} {names : List String} {topK dimension : Nat} {edges : String}
  {table : FeatureTable} {g : Graph}

/-- A head that takes the rows and scores the names gives the engine its scores. -/
theorem engine_scores_eq_ok_iff (hbuild : Graph.buildInline edges table dimension = .ok g)
    {ss : List Single} :
    (h.engine dimension names topK).scores g = .ok ss ↔
      h.inputDimension = dimension ∧ h.outputDimension = names.length ∧
        h.scores (Tensors.ofGraph g).rows = .ok ss := by
  obtain ⟨hne, hrows⟩ := Graph.rows_of_build hbuild
  rw [Engine.scores_eq_ok_iff]
  show h.scores (Tensors.ofGraph g).rows = .ok ss ∧ ss.length = names.length ↔ _
  rw [LinearHead.scores_eq_ok_iff]
  constructor
  · rintro ⟨⟨-, hlength, rfl⟩, hcount⟩
    obtain ⟨row, hrow⟩ := List.exists_mem_of_ne_nil _ hne
    refine ⟨(hlength row hrow).symm.trans (hrows row hrow), ?_, hne, hlength, rfl⟩
    rw [← hcount, length_readout]
  · rintro ⟨-, hout, -, hlength, rfl⟩
    exact ⟨⟨hne, hlength, rfl⟩, (length_readout h _).trans hout⟩

theorem engine_scores_ne_noNodes (hbuild : Graph.buildInline edges table dimension = .ok g) :
    (h.engine dimension names topK).scores g ≠ .error .noNodes := by
  intro he
  obtain ⟨hne, -⟩ := Graph.rows_of_build hbuild
  rcases Engine.scores_eq_error_iff.1 he with hf | ⟨ss, -, -, hf⟩
  · rcases LinearHead.scores_eq_error_iff.1 hf with ⟨hnil, -⟩ | ⟨row, -, hf⟩
    · exact hne hnil
    · exact nomatch hf
  · exact nomatch hf

/-- The categories are ranked exactly when the input is classifiable. -/
theorem exists_classify_iff (ht : table.Built) (hd : table.dimension = dimension) :
    (∃ ps, (h.engine dimension names topK).classify edges table = .ok ps) ↔
      h.Classifies dimension names topK edges table := by
  subst hd
  simp only [Engine.classify_eq_ok_iff]
  constructor
  · rintro ⟨ps, g', ss, hbuild, ⟨r, hroot⟩, hscores, hrank⟩
    obtain ⟨g, hparse, hrows, -⟩ := (Graph.exists_build_iff ht).1 ⟨g', hbuild⟩
    obtain ⟨hin, hout, hss⟩ := (engine_scores_eq_ok_iff hbuild).1 hscores
    have hcount := (Engine.scores_eq_ok_iff.1 hscores).2
    obtain ⟨hpos, hle, hfinite⟩ := (exists_rankWith_iff (Nat.le_of_eq hcount)).1 ⟨ps, hrank⟩
    refine ⟨⟨g, hparse, hrows, r, (Graph.treeRoot_of_build hparse hbuild).1 hroot⟩, hin, hout, hpos,
      hcount ▸ hle, fun g₁ hg₁ ss₁ hss₁ => ?_⟩
    obtain rfl := Except.ok.inj (hbuild.symm.trans hg₁)
    obtain rfl := Except.ok.inj (hss.symm.trans hss₁)
    exact hfinite
  · rintro ⟨⟨g, hparse, hrows, r, htree⟩, hin, hout, hpos, hle, hfinite⟩
    obtain ⟨g', hbuild⟩ := (Graph.exists_build_iff ht).2 ⟨g, hparse, hrows, rfl⟩
    obtain ⟨hne, hlength⟩ := Graph.rows_of_build hbuild
    have hss := scores_of_length (h := h) hne fun row hrow => (hlength row hrow).trans hin.symm
    have hscores : (h.engine table.dimension names topK).scores g' = .ok _ :=
      (engine_scores_eq_ok_iff hbuild).2 ⟨hin, hout, hss⟩
    have hcount := (Engine.scores_eq_ok_iff.1 hscores).2
    obtain ⟨ps, hps⟩ : ∃ ps, rank (h.readout (Tensors.ofGraph g').rows) topK names = .ok ps :=
      (exists_rankWith_iff (Nat.le_of_eq hcount)).2
        ⟨hpos, hcount.symm ▸ hle, hfinite g' hbuild _ hss⟩
    exact ⟨ps, g', _, hbuild, ⟨r, (Graph.treeRoot_of_build hparse hbuild).2 htree⟩, hscores, hps⟩

/-- A head, a table of the engine's dimension and a name list rank the categories of an edge list
exactly when it is classifiable. The ranking is that of the scores of the graph: distinct positions,
as many as asked for, each with its name and its score. No failure is one of a position without a
name, of a row of another length, or of a graph without nodes. -/
theorem classify_exact (h : LinearHead Single) (names : List String) (topK : Nat) (edges : String)
    (ht : table.Built) (hd : table.dimension = dimension) :
    ((∃ ps, (h.engine dimension names topK).classify edges table = .ok ps) ↔
      h.Classifies dimension names topK edges table) ∧
    (∀ ps, (h.engine dimension names topK).classify edges table = .ok ps →
      ∃ g ss, Graph.buildInline edges table dimension = .ok g ∧
        h.scores (Tensors.ofGraph g).rows = .ok ss ∧ rank ss topK names = .ok ps ∧
        Selects ss topK names ps) ∧
    ∀ e, (h.engine dimension names topK).classify edges table = .error e →
      (∀ ordinal count, e ≠ .invalidOrdinal ordinal count) ∧
      (∀ node origin expected found, e ≠ .featureDimension node origin expected found) ∧
      e ≠ .classifier .noNodes := by
  refine ⟨exists_classify_iff ht hd, ?_, ?_⟩
  · intro ps hps
    obtain ⟨g, ss, hbuild, -, hscores, hrank⟩ := Engine.classify_eq_ok_iff.1 hps
    exact ⟨g, ss, hbuild, ((engine_scores_eq_ok_iff hbuild).1 hscores).2.2, hrank,
      selects_of_rankWith hrank⟩
  · intro e he
    subst hd
    rcases Engine.classify_eq_error_iff.1 he with
      hbuild | ⟨g, hbuild, ⟨v, -, rfl⟩ | ⟨r, -, ⟨fault, hscores, rfl⟩ | ⟨ss, hscores, hrank⟩⟩⟩
    · rcases Graph.of_build_eq_error ht hbuild with ⟨fault, rfl⟩ | ⟨node, source, rfl⟩ <;> simp
    · simp
    · have hne : fault ≠ .noNodes := by
        rintro rfl
        exact engine_scores_ne_noNodes hbuild hscores
      simpa using hne
    · have hcount := (Engine.scores_eq_ok_iff.1 hscores).2
      have htop := (rankWith_eq_error_iff (Nat.le_of_eq hcount)).1 hrank
      rcases of_topScores_eq_error htop with rfl | ⟨i, rfl⟩ <;> simp

/-! ## A graph of one edge -/

theorem built_soloTable (v w : Single) : (soloTable v w).Built :=
  ((FeatureTable.Built.empty 1 "r/a/a-1.features").insert
    (FeatureTable.insert_eq_ok_iff.2 ⟨rfl, rfl⟩)).insert
    (FeatureTable.insert_eq_ok_iff.2 ⟨rfl, rfl⟩)

/-- Two categories, with the mean of the features and its negation as scores. -/
def soloHead : LinearHead Single :=
  ⟨[[⟨0x3F800000⟩], [⟨0xBF800000⟩]], [⟨0⟩, ⟨0⟩], by decide, by decide, by decide⟩

theorem classifies_solo :
    soloHead.Classifies 1 ["a", "b"] 2 "p c" (soloTable ⟨0x3F800000⟩ ⟨0x40000000⟩) where
  exists_tree := by
    refine ⟨soloGraph, parse_solo _, fun id hid => ?_, 0,
      rootedAt_soloGraph.isTreeAt built_soloGraph.linked⟩
    exact (lookup_of_mem_soloGraph ⟨0x3F800000⟩ ⟨0x40000000⟩ hid).imp fun _ => And.left
  inputDimension_eq := rfl
  outputDimension_eq := rfl
  one_le_topK := by decide
  topK_le := by decide
  isFinite := by
    intro g hg ss hss
    obtain ⟨g₀, hparse, hann⟩ := Graph.build_eq_ok_iff.1 hg
    obtain rfl := Except.ok.inj ((parse_solo _).symm.trans hparse)
    have hrows : (Tensors.ofGraph g).rows = [[⟨0x3F800000⟩], [⟨0x40000000⟩]] :=
      (Graph.annotates_of_annotate hann).map_features (map_lookup_soloGraph _ _)
    have hscores : soloHead.scores [[⟨0x3F800000⟩], [⟨0x40000000⟩]] =
        .ok [⟨0x3FC00000⟩, ⟨0xBFC00000⟩] := by decide +kernel
    rw [hrows, hscores] at hss
    obtain rfl := Except.ok.inj hss
    decide

theorem classify_exact_solo : ∃ table : FeatureTable, table.Built ∧ table.dimension = 1 ∧
    (∃ ps, (soloHead.engine 1 ["a", "b"] 2).classify "p c" table = .ok ps) ∧
    ∀ ps, (soloHead.engine 1 ["a", "b"] 2).classify "p c" table = .ok ps → ps.length = 2 := by
  have hexact := classify_exact soloHead ["a", "b"] 2 "p c"
    (built_soloTable ⟨0x3F800000⟩ ⟨0x40000000⟩) rfl
  refine ⟨_, built_soloTable _ _, rfl, hexact.1.2 classifies_solo, fun ps hps => ?_⟩
  obtain ⟨_, _, -, -, -, hselects⟩ := hexact.2.1 ps hps
  exact hselects.length_eq

end LinearHead

end TreeCorpus
