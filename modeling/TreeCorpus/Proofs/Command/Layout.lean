import TreeCorpus.Proofs.Command.Refusal
import TreeCorpus.Proofs.Graph.Measures
import TreeCorpus.Proofs.Number.Value
import TreeCorpus.Proofs.Settings.InRange

/-!
# Laying out on the command line

The measures of the settings are finite and positive, since the settings are tested. Measures that
stand on the command line take their place and are not tested. So the spans of a printed layout
have room exactly if no width is given or the given one is positive, and likewise for the level gap
(`layout_measures_exact`).
-/

namespace TreeCorpus

open Number

/-! ## Measures -/

theorem Config.isPositive_iff_value_pos {K : Type} [Field K] [LinearOrder K]
    [IsStrictOrderedRing K] {x : Double} (hx : x.isFinite = true) :
    isPositive x = true ↔ 0 < x.value K := by
  unfold isPositive
  rw [hx, Bool.true_and, decide_eq_true_iff]
  exact key_pos_iff_value_pos hx

/-- The numbers that measures stand for. -/
def LayoutMeasures.exact (K : Type) [Field K] (m : LayoutMeasures Double) : LayoutMeasures K :=
  ⟨m.width.value K, m.levelGap.value K⟩

namespace Command

variable {d : Disk} {c : Config} {target : LayoutTarget} {root : Option String}
  {width levelGap : Option Double} {colors : Bool} {code : ExitCode} {g : Graph}
  {l : Layout Double}

/-- The measures of a layout: those on the command line, or else those of the settings. -/
def measures (c : Config) (width levelGap : Option Double) : LayoutMeasures Double :=
  ⟨width.getD c.layout.width, levelGap.getD c.layout.levelGap⟩

/-- A measure is positive unless the command line gives one that is not. -/
theorem isPositive_getD_iff {given : Option Double} {x : Double}
    (hx : Config.isPositive x = true) :
    Config.isPositive (given.getD x) = true ↔ ∀ y ∈ given, Config.isPositive y = true := by
  cases given <;> simp [hx]

/-! ## The command -/

theorem Outcome.of_result_ofLines_eq_ok {y : Except Error (List String)}
    (h : (Outcome.ofLines d y).result = .ok code) : ∃ lines, y = .ok lines := by
  cases y with
  | ok lines => exact ⟨lines, rfl⟩
  | error e => exact nomatch h

theorem execute_layout_eq (d : Disk) (c : Config) (target : LayoutTarget) (root : Option String)
    (width levelGap : Option Double) (colors : Bool) :
    execute colors d c (.layout target root width levelGap) = .ofLines d do
      let g ← targetGraph d c target
      let l ← (g.layout (measures c width levelGap) root).mapError .notATree
      return [(layoutJson l).pretty] :=
  rfl

theorem execute_layout (hg : targetGraph d c target = .ok g)
    (hl : g.layout (measures c width levelGap) root = .ok l) (colors : Bool) :
    execute colors d c (.layout target root width levelGap) =
      .printed d [(layoutJson l).pretty] := by
  rw [execute_layout_eq, hg]
  show Outcome.ofLines d ((g.layout _ root).mapError Error.notATree >>= _) = _
  rw [mapError_eq_ok_iff.2 hl]
  rfl

/-- A command that prints a layout had a graph, and a layout of it. -/
theorem of_execute_layout_eq_ok
    (h : (execute colors d c (.layout target root width levelGap)).result = .ok code) :
    ∃ g l, targetGraph d c target = .ok g ∧
      g.layout (measures c width levelGap) root = .ok l := by
  rw [execute_layout_eq] at h
  obtain ⟨lines, hlines⟩ := Outcome.of_result_ofLines_eq_ok h
  obtain ⟨g, hg, hrest⟩ := bind_eq_ok_iff.1 hlines
  obtain ⟨l, hl, -⟩ := bind_eq_ok_iff.1 hrest
  exact ⟨g, l, hg, mapError_eq_ok_iff.1 hl⟩

/-- The graph of a target is linked and has an edge. -/
theorem linked_and_edges_of_targetGraph (h : targetGraph d c target = .ok g) :
    g.Linked ∧ 0 < g.edges.size := by
  cases target with
  | edges text =>
    exact ⟨(Graph.built_and_nodup_of_parse h).1.linked, Graph.size_edges_pos_of_parse h⟩
  | sample i =>
    obtain ⟨a, -, hrest⟩ := bind_eq_ok_iff.1 h
    obtain ⟨s, hs, hgraph⟩ := bind_eq_ok_iff.1 hrest
    obtain rfl : s.graph = g := Except.ok.inj hgraph
    obtain ⟨-, -, hgraph, -, -⟩ := Dataset.buildSample_eq_ok_iff.1 hs
    obtain ⟨table, text, g₀, -, -, hparse, hann⟩ := Dataset.buildGraph_eq_ok_iff.1 hgraph
    refine ⟨Dataset.linked_of_buildGraph hgraph, ?_⟩
    rw [(Graph.annotates_of_annotate hann).edges_eq]
    exact Graph.size_edges_pos_of_parse hparse

/-- A printed layout has the measures of the command line, where it gives any, and else those of the
settings, which are positive. In exact arithmetic its spans have room exactly if its width is
positive, and its children lie below their parents exactly if its level gap is. -/
theorem layout_measures_exact (K : Type) [Field K] [LinearOrder K] [IsStrictOrderedRing K]
    (hc : c.validate = .ok c)
    (hrun : (execute colors d c (.layout target root width levelGap)).result = .ok code) :
    let m := measures c width levelGap
    ∃ g l, targetGraph d c target = .ok g ∧ g.layout m root = .ok l ∧
      execute colors d c (.layout target root width levelGap) =
        .printed d [(layoutJson l).pretty] ∧
      (Config.isPositive m.width = true ↔ ∀ x ∈ width, Config.isPositive x = true) ∧
      (Config.isPositive m.levelGap = true ↔ ∀ x ∈ levelGap, Config.isPositive x = true) ∧
      ∃ l' : Layout K, g.layout (m.exact K) root = .ok l' ∧
        l'.entries.map Prod.fst = l.entries.map Prod.fst ∧
        (m.width.isFinite = true → (l'.Wide ↔ Config.isPositive m.width = true)) ∧
        (m.levelGap.isFinite = true →
          (g.Descends l' ↔ Config.isPositive m.levelGap = true)) := by
  intro m
  obtain ⟨g, l, hg, hlayout⟩ := of_execute_layout_eq_ok hrun
  obtain ⟨hl, hedges⟩ := linked_and_edges_of_targetGraph hg
  obtain ⟨r, hroot, rfl⟩ := (Graph.layout_eq_ok_iff hl).1 hlayout
  have hr := (Graph.treeRoot_eq_ok_iff hl).1 (Graph.treeRoot_of_resolveRoot hroot)
  have hplaces := Graph.places_placeAt hr hl (m.exact K)
  have hrange := Config.validate_eq_ok_iff_inRange.1 hc
  refine ⟨g, _, hg, hlayout, execute_layout hg hlayout colors,
    isPositive_getD_iff hrange.isPositive_width, isPositive_getD_iff hrange.isPositive_levelGap,
    _, (Graph.layout_eq_ok_iff hl).2 ⟨r, hroot, rfl⟩, ?_, fun hfinite => ?_, fun hfinite => ?_⟩
  · rw [Graph.map_fst_entries_layoutOf, Graph.map_fst_entries_layoutOf]
  · exact (hplaces.wide_iff hr).trans (Config.isPositive_iff_value_pos hfinite).symm
  · exact (hplaces.descends_iff hr hl hedges).trans (Config.isPositive_iff_value_pos hfinite).symm

/-! ## A tree of two nodes -/

theorem load_empty : Config.load Disk.empty = .ok Config.default := by decide +kernel

theorem layout_soloGraph {α : Type} [Arithmetic α] (m : LayoutMeasures α) :
    soloGraph.layout m none = .ok (soloGraph.layoutOf (soloGraph.placeAt m 0)) :=
  Graph.layout_none rootedAt_soloGraph built_soloGraph.linked m

theorem execute_layout_solo (c : Config) (width levelGap : Option Double) (colors : Bool) :
    ∃ l, execute colors Disk.empty c (.layout (.edges "p c") none width levelGap) =
      .printed Disk.empty [(layoutJson l).pretty] := by
  have hg : targetGraph Disk.empty c (.edges "p c") = .ok soloGraph := parse_solo _
  exact ⟨_, execute_layout hg (layout_soloGraph _) colors⟩

theorem layout_measures_exact_solo : ∃ l : Layout ℚ,
    soloGraph.layout (Config.default.layout.exact ℚ) none = .ok l ∧ l.Wide ∧
      soloGraph.Descends l := by
  have hvalid : Config.default.validate = .ok .default :=
    Config.validate_eq_ok_iff.2 ⟨Config.fault?_default, rfl⟩
  obtain ⟨l₀, hl₀⟩ := execute_layout_solo .default none none false
  have hrun : (execute false Disk.empty .default (.layout (.edges "p c") none none none)).result =
      .ok .success := by
    rw [hl₀]
    rfl
  obtain ⟨g, l, hg, -, -, hwidth, hgap, l', hl', -, hwide, hdescends⟩ :=
    layout_measures_exact ℚ hvalid hrun
  obtain rfl : soloGraph = g := Except.ok.inj ((parse_solo _).symm.trans hg)
  have hwidth := hwidth.2 (by simp)
  have hgap := hgap.2 (by simp)
  exact ⟨l', hl', (hwide (by decide +kernel)).2 hwidth, (hdescends (by decide +kernel)).2 hgap⟩

/-- A width of zero is refused in the settings and taken from the command line. Its layout is
printed, and no span has room. -/
theorem layout_without_width : ∃ (i : Invocation) (w : Double),
    Command.read ["layout", "--edges", "p c", "--width", "0"] = .ok i ∧
      i.command = .layout (.edges "p c") none (some w) none ∧
      i.settings Disk.empty = .ok Config.default ∧
      Config.default.validate = .ok Config.default ∧
      (∃ l, i.run false Disk.empty = .printed Disk.empty [(layoutJson l).pretty]) ∧
      w.isFinite = true ∧ Config.isPositive w = false ∧
      ∃ l : Layout ℚ,
        soloGraph.layout ((measures .default (some w) none).exact ℚ) none = .ok l ∧ ¬ l.Wide := by
  let i : Invocation := ⟨.layout (.edges "p c") none (some (.zero false)) none, none⟩
  have hsettings : i.settings Disk.empty = .ok Config.default := load_empty
  obtain ⟨l, hl⟩ := execute_layout_solo .default (some (.zero false)) none false
  refine ⟨i, .zero false, by decide +kernel, rfl, hsettings,
    Config.validate_eq_ok_iff.2 ⟨Config.fault?_default, rfl⟩,
    ⟨l, (run_of_settings hsettings false).trans hl⟩, by decide +kernel, by decide +kernel, _,
    layout_soloGraph _, ?_⟩
  have hzero : (Binary.zero false : Double).value ℚ = 0 := value_zero false
  have hplaces := Graph.places_placeAt rootedAt_soloGraph built_soloGraph.linked
    ((measures .default (some (.zero false)) none).exact ℚ)
  rw [hplaces.wide_iff rootedAt_soloGraph]
  exact hzero.not_gt

end Command

end TreeCorpus
