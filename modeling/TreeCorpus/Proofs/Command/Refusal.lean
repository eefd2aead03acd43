import TreeCorpus.Proofs.Catalog.Domain
import TreeCorpus.Proofs.Command.Build
import TreeCorpus.Proofs.Command.Rank

/-!
# Refused values

Once the settings and the catalog are there, a command that resolves, locates, ranks or builds fails
only because of a value that its caller passed (`Refused`), or, for a build, because of a file
(`FileFault`). Each refused value has its exit code: that of failed input if the library refuses it,
and the common one if the command itself does, which is so for a word that is no score and for a
start past the end of the range (`refusals_exact`).
-/

namespace TreeCorpus

open Number Ranking Console

namespace Command

/-- The commands that look a value up in the catalog or rank its categories. -/
def TakesValue : Command → Prop
  | resolve _ | locate _ _ | build _ _ _ | rank _ _ => True
  | _ => False

/-- A value that the caller passed is refused, with the given exit code. -/
inductive Refused (x : SampleIndex) (topK : Nat) : Command → ExitCode → Prop where
  /-- No solution has the index. -/
  | index {i : Nat} : x.total ≤ i → Refused x topK (.resolve i) .invalidInput
  /-- No category has the name. -/
  | category {name : String} {number : Nat} : name ∉ x.catalog.names →
      Refused x topK (.locate name number) .invalidInput
  /-- The category has no solution of the number. -/
  | number {name : String} {number : Nat} : name ∈ x.catalog.names →
      (∀ i, x.locate name number = .ok i → x.total ≤ i) →
      Refused x topK (.locate name number) .invalidInput
  /-- A word of the list is no number. -/
  | word {text : String} {k : Option Nat} {w : String} : w ∈ scoreWords text →
      (Binary.ofText? w : Option Single) = none → Refused x topK (.rank text k) .failure
  /-- As many scores as asked for cannot be taken. -/
  | count {text : String} {k : Option Nat} {ss : List Single} :
      readScores (scoreWords text) = .ok ss → k.getD topK = 0 ∨ ss.length < k.getD topK →
      Refused x topK (.rank text k) .invalidInput
  /-- A score is not finite. -/
  | score {text : String} {k : Option Nat} {ss : List Single} {s : Single} :
      readScores (scoreWords text) = .ok ss → s ∈ ss → s.isFinite = false →
      Refused x topK (.rank text k) .invalidInput
  /-- One of the highest scores has no category. -/
  | ordinal {text : String} {k : Option Nat} {ss : List Single} {e : Single × Nat} :
      readScores (scoreWords text) = .ok ss → e ∈ (ranking ss).take (k.getD topK) →
      x.catalog.size ≤ e.2 → Refused x topK (.rank text k) .invalidInput
  /-- The range starts past its end. -/
  | start {start : Nat} {stop : Option Nat} {output : Option String} :
      min (stop.getD x.total) x.total < start →
      Refused x topK (.build start stop output) .failure

/-- The file that a build fails for: the table of its settings, or the one to be written. -/
inductive FileFault (d : Disk) (c : Config) : Command → Failure → Prop where
  | table {start : Nat} {stop : Option Nat} {output : Option String} {path : String} {e : Error} :
      c.features.table = some path →
      FeatureTable.load d path c.features.dimension = .error e →
      FileFault d c (.build start stop output) (.library e)
  | output {start : Nat} {stop : Option Nat} {path : String} {fault : DiskFault} :
      d.writeText path "" = .error fault →
      FileFault d c (.build start stop (some path)) (.writing path (.ofDisk path fault))

/-! ## The commands -/

variable {d : Disk} {c : Config} {found : Catalog} {x : SampleIndex} {topK i : Nat}

/-- Lines in place of an error are a success. -/
theorem Outcome.result_ofLines_eq_error_iff {y : Except Error (List String)} {f : Failure} :
    (Outcome.ofLines d y).result = .error f ↔ ∃ e, y = .error e ∧ f = .library e := by
  cases y with
  | ok lines => simp [Outcome.ofLines, Outcome.printed]
  | error e => simp [Outcome.ofLines, Outcome.failed, eq_comm]

/-- Only an index that no solution has is not shown. -/
theorem resolvedLines_eq_error_iff (hx : x.Formed) {colors : Bool} {e : Error} :
    resolvedLines colors x i = .error e ↔ x.total ≤ i ∧ e = .indexOutOfRange i x.total := by
  unfold resolvedLines
  rw [map_eq_error_iff]
  rcases Nat.lt_or_ge i x.total with hlt | hle
  · obtain ⟨s, hs⟩ := hx.exists_resolve_iff.2 hlt
    simp [hs, Nat.not_le.2 hlt]
  · simp [hx.resolve_of_le hle, hle, eq_comm]

section Execute

variable (hindex : SampleIndex.load d c.catalog = .ok x) (colors : Bool)

include hindex

theorem execute_resolve (i : Nat) :
    execute colors d c (.resolve i) = .ofLines d (resolvedLines colors x i) := by
  show runResolve colors d c i = _
  unfold runResolve
  rw [hindex]
  rfl

theorem execute_locate (name : String) (number : Nat) :
    execute colors d c (.locate name number) =
      .ofLines d (x.locate name number >>= resolvedLines colors x) := by
  show runLocate colors d c name number = _
  unfold runLocate
  rw [hindex]
  rfl

end Execute

/-- A ranking that fails was asked for something that the input does not admit. -/
theorem exitCode_of_rank_eq_error {ss : List Single} {k : Nat} {names : List String} {e : Error}
    (h : Ranking.rank ss k names = .error e) : (Failure.library e).exitCode = .invalidInput := by
  rcases of_rankWith_eq_error h with rfl | ⟨i, rfl⟩ | ⟨i, rfl⟩
  · rfl
  · rfl
  · rfl

/-- A dataset whose catalog is loaded is there unless its shared table cannot be loaded. -/
theorem load_dataset_cases (hindex : SampleIndex.load d c.catalog = .ok x) :
    (∃ a, Dataset.load d c = .ok a ∧ a.index = x) ∨
      ∃ path e, c.features.table = some path ∧
        FeatureTable.load d path c.features.dimension = .error e ∧ Dataset.load d c = .error e := by
  cases hpath : c.features.table with
  | none =>
    have hload : Dataset.load d c = .ok ⟨x, _, _, none⟩ :=
      Dataset.load_eq_ok_iff.2 ⟨hindex, rfl, rfl, .inl ⟨hpath, rfl⟩⟩
    exact .inl ⟨_, hload, rfl⟩
  | some path =>
    cases htable : FeatureTable.load d path c.features.dimension with
    | ok table =>
      exact .inl ⟨⟨x, _, _, some table⟩,
        Dataset.load_eq_ok_iff.2 ⟨hindex, rfl, rfl, .inr ⟨path, table, hpath, htable, rfl⟩⟩, rfl⟩
    | error e =>
      refine .inr ⟨path, e, rfl, htable, ?_⟩
      unfold Dataset.load
      simp only [hindex, hpath, htable]
      rfl

theorem execute_build_of_error {e : Error} (he : Dataset.load d c = .error e) (colors : Bool)
    {start : Nat} {stop : Option Nat} {output : Option String} :
    execute colors d c (.build start stop output) = .failed d (.library e) := by
  show runBuild colors d c start stop output = _
  unfold runBuild
  simp only [he]

/-! ## Refused values and failures -/

section Refusals

variable (hload : Catalog.load d c.catalog = .ok found) (colors : Bool) {cmd : Command}

include hload

/-- A list that is read and not ranked is refused. -/
theorem failed_of_not_ranked {text : String} {k : Option Nat} {ss : List Single}
    (hss : readScores (scoreWords text) = .ok ss)
    (h : ¬ ∃ ps, Ranking.rank ss (k.getD c.inference.topK) found.names = .ok ps) :
    ∃ f, execute colors d c (.rank text k) = .failed d f ∧ f.exitCode = .invalidInput := by
  rw [execute_rank_of_readScores hload hss]
  cases hrank : Ranking.rank ss (k.getD c.inference.topK) found.names with
  | error e => exact ⟨_, rfl, exitCode_of_rank_eq_error hrank⟩
  | ok ps => exact absurd ⟨ps, hrank⟩ h

/-- A refused value ends the command with its exit code, unless a build cannot load its table. -/
theorem failed_of_refused {code : ExitCode}
    (h : Refused (.ofCatalog found c.catalog) c.inference.topK cmd code) :
    ∃ f, execute colors d c cmd = .failed d f ∧ (f.exitCode = code ∨ FileFault d c cmd f) := by
  have hindex := SampleIndex.load_of_catalog hload
  have hformed := SampleIndex.formed_of_load hindex
  cases h with
  | index hi =>
    rw [execute_resolve hindex, (resolvedLines_eq_error_iff hformed).2 ⟨hi, rfl⟩]
    exact ⟨_, rfl, .inl rfl⟩
  | category hname =>
    rw [execute_locate hindex, SampleIndex.locate_eq_unknown hname]
    exact ⟨_, rfl, .inl rfl⟩
  | @number name number hname hlocate =>
    rw [execute_locate hindex]
    cases hl : (SampleIndex.ofCatalog found c.catalog).locate name number with
    | error e =>
      obtain ⟨count, rfl⟩ := SampleIndex.of_locate_eq_error hname hl
      exact ⟨_, rfl, .inl rfl⟩
    | ok i =>
      show ∃ f, Outcome.ofLines d (resolvedLines colors _ i) = .failed d f ∧ _
      rw [(resolvedLines_eq_error_iff hformed).2 ⟨hlocate i hl, rfl⟩]
      exact ⟨_, rfl, .inl rfl⟩
  | @word text k w hw hnone =>
    cases hread : readScores (scoreWords text) with
    | error f =>
      obtain ⟨v, -, -, rfl⟩ := of_readScores_eq_error hread
      exact ⟨_, execute_rank_of_error hread colors, .inl rfl⟩
    | ok ss =>
      have hmem : none ∈ ss.map some := by
        rw [← readScores_eq_ok_iff.1 hread, ← hnone]
        exact List.mem_map_of_mem hw
      exact absurd hmem (by simp)
  | @count text k ss hss hk =>
    have hnot : ¬ ∃ ps, Ranking.rank ss (k.getD c.inference.topK) found.names = .ok ps := by
      rw [exists_rank_iff]
      omega
    obtain ⟨f, hf, hcode⟩ := failed_of_not_ranked hload colors hss hnot
    exact ⟨f, hf, .inl hcode⟩
  | @score text k ss s hss hs hfinite =>
    have hnot : ¬ ∃ ps, Ranking.rank ss (k.getD c.inference.topK) found.names = .ok ps := by
      rw [exists_rank_iff]
      rintro ⟨-, -, hall, -⟩
      exact absurd (hall s hs) (by simp [hfinite])
    obtain ⟨f, hf, hcode⟩ := failed_of_not_ranked hload colors hss hnot
    exact ⟨f, hf, .inl hcode⟩
  | @ordinal text k ss e hss he hle =>
    rw [SampleIndex.catalog_ofCatalog, ← found.length_names] at hle
    have hnot : ¬ ∃ ps, Ranking.rank ss (k.getD c.inference.topK) found.names = .ok ps := by
      rw [exists_rank_iff]
      rintro ⟨-, -, -, hlt⟩
      exact absurd (hlt e he) (Nat.not_lt.2 hle)
    obtain ⟨f, hf, hcode⟩ := failed_of_not_ranked hload colors hss hnot
    exact ⟨f, hf, .inl hcode⟩
  | start hlt =>
    rcases load_dataset_cases hindex with ⟨a, ha, hsize⟩ | ⟨path, e, hpath, htable, hdataset⟩
    · rw [← hsize] at hlt
      exact ⟨_, execute_build_of_lt ha colors hlt _, .inl rfl⟩
    · exact ⟨_, execute_build_of_error hdataset colors, .inr (.table hpath htable)⟩

omit hload in
/-- A list whose ranking failed has too few scores, one that is not finite, or a high one without a
category. -/
theorem refused_of_not_ranked {text : String} {k : Option Nat} {ss : List Single}
    (hss : readScores (scoreWords text) = .ok ss)
    (h : ¬ ∃ ps, Ranking.rank ss (k.getD c.inference.topK) found.names = .ok ps) :
    Refused (.ofCatalog found c.catalog) c.inference.topK (.rank text k) .invalidInput := by
  by_cases hcount : k.getD c.inference.topK = 0 ∨ ss.length < k.getD c.inference.topK
  · exact .count hss hcount
  by_cases hscore : ∃ s ∈ ss, s.isFinite = false
  · obtain ⟨s, hs, hfinite⟩ := hscore
    exact .score hss hs hfinite
  by_cases hordinal : ∃ e ∈ (ranking ss).take (k.getD c.inference.topK), found.size ≤ e.2
  · obtain ⟨e, he, hle⟩ := hordinal
    refine .ordinal hss he ?_
    rwa [SampleIndex.catalog_ofCatalog]
  · refine absurd (exists_rank_iff.2 ⟨by omega, by omega, ?_, ?_⟩) h
    · intro s hs
      exact Bool.eq_true_of_not_eq_false fun hfinite => hscore ⟨s, hs, hfinite⟩
    · intro e he
      rw [found.length_names]
      exact Nat.lt_of_not_le fun hle => hordinal ⟨e, he, hle⟩

theorem refused_of_rank_failed {text : String} {k : Option Nat} {f : Failure}
    (h : (execute colors d c (.rank text k)).result = .error f) :
    Refused (.ofCatalog found c.catalog) c.inference.topK (.rank text k) f.exitCode := by
  cases hread : readScores (scoreWords text) with
  | error f' =>
    rw [execute_rank_of_error hread] at h
    obtain rfl := Except.error.inj h
    obtain ⟨w, hw, hnone, rfl⟩ := of_readScores_eq_error hread
    exact .word hw hnone
  | ok ss =>
    rw [execute_rank_of_readScores hload hread, Outcome.result_ofLines_eq_error_iff] at h
    obtain ⟨e, he, rfl⟩ := h
    rw [map_eq_error_iff] at he
    rw [exitCode_of_rank_eq_error he]
    refine refused_of_not_ranked hread ?_
    simp [he]

theorem refused_of_locate_failed {name : String} {number : Nat} {f : Failure}
    (h : (execute colors d c (.locate name number)).result = .error f) :
    Refused (.ofCatalog found c.catalog) c.inference.topK (.locate name number) f.exitCode := by
  have hindex := SampleIndex.load_of_catalog hload
  have hformed := SampleIndex.formed_of_load hindex
  rw [execute_locate hindex, Outcome.result_ofLines_eq_error_iff] at h
  obtain ⟨e, he, rfl⟩ := h
  by_cases hname : name ∈ (SampleIndex.ofCatalog found c.catalog).catalog.names
  · cases hl : (SampleIndex.ofCatalog found c.catalog).locate name number with
    | error e' =>
      obtain ⟨count, rfl⟩ := SampleIndex.of_locate_eq_error hname hl
      rw [hl] at he
      obtain rfl := Except.error.inj he
      exact .number hname fun i hi => absurd (hi.symm.trans hl) (by simp)
    | ok i =>
      rw [hl] at he
      obtain ⟨hle, rfl⟩ := (resolvedLines_eq_error_iff hformed).1 he
      refine .number hname fun j hj => ?_
      obtain rfl := Except.ok.inj (hl.symm.trans hj)
      exact hle
  · rw [SampleIndex.locate_eq_unknown hname] at he
    obtain rfl := Except.error.inj he
    exact .category hname

theorem refused_of_build_failed {start : Nat} {stop : Option Nat} {output : Option String}
    {f : Failure} (h : (execute colors d c (.build start stop output)).result = .error f) :
    Refused (.ofCatalog found c.catalog) c.inference.topK (.build start stop output) f.exitCode ∨
      FileFault d c (.build start stop output) f := by
  replace h : (runBuild colors d c start stop output).result = .error f := h
  unfold runBuild at h
  rcases load_dataset_cases (SampleIndex.load_of_catalog hload) with
    ⟨a, ha, hindex⟩ | ⟨path, e, hpath, htable, hdataset⟩
  · simp only [ha] at h
    by_cases hlt : min (stop.getD a.size) a.size < start
    · rw [if_pos hlt] at h
      obtain rfl := Except.error.inj h
      refine .inl (.start ?_)
      rwa [Dataset.size, hindex] at hlt
    · rw [if_neg hlt] at h
      cases output with
      | none => exact absurd h (by simp)
      | some path =>
        dsimp only at h
        split at h
        · rename_i e hsave
          obtain ⟨fault, hfault, rfl⟩ := Record.save_eq_error_iff.1 hsave
          obtain rfl := Except.error.inj h
          exact .inr (.output hfault)
        · exact absurd h (by simp)
  · simp only [hdataset] at h
    obtain rfl := Except.error.inj h
    exact .inr (.table hpath htable)

/-- A command that failed refused a value, or a build had no file. -/
theorem refused_of_failed {f : Failure} (hcmd : cmd.TakesValue)
    (h : (execute colors d c cmd).result = .error f) :
    Refused (.ofCatalog found c.catalog) c.inference.topK cmd f.exitCode ∨ FileFault d c cmd f := by
  cases cmd with
  | resolve i =>
    have hindex := SampleIndex.load_of_catalog hload
    rw [execute_resolve hindex, Outcome.result_ofLines_eq_error_iff] at h
    obtain ⟨e, he, rfl⟩ := h
    obtain ⟨hle, rfl⟩ := (resolvedLines_eq_error_iff (SampleIndex.formed_of_load hindex)).1 he
    exact .inl (.index hle)
  | locate name number => exact .inl (refused_of_locate_failed hload colors h)
  | rank text k => exact .inl (refused_of_rank_failed hload colors h)
  | build start stop output => exact refused_of_build_failed hload colors h
  | _ => exact hcmd.elim

end Refusals

/-- A call with settings runs its command. -/
theorem run_of_settings {i : Invocation} (h : i.settings d = .ok c) (colors : Bool) :
    i.run colors d = execute colors d c i.command := by
  unfold Invocation.run
  rw [h]

/-- With settings and a catalog, a refused value ends its command with the value's exit code before
anything is printed or written, and nothing else ends one of these commands but a file that a build
cannot read or write. -/
theorem refusals_exact {i : Invocation} (hsettings : i.settings d = .ok c)
    (hload : Catalog.load d c.catalog = .ok found) (colors : Bool) :
    let x := SampleIndex.ofCatalog found c.catalog
    let o := i.run colors d
    (∀ code, Refused x c.inference.topK i.command code →
      ∃ f, o = .failed d f ∧ (f.exitCode = code ∨ FileFault d c i.command f)) ∧
    (i.command.TakesValue → ∀ f, o.result = .error f →
      Refused x c.inference.topK i.command f.exitCode ∨ FileFault d c i.command f) := by
  intro x o
  have ho : o = execute colors d c i.command := run_of_settings hsettings colors
  rw [ho]
  exact ⟨fun code h => failed_of_refused hload colors h,
    fun hcmd f h => refused_of_failed hload colors hcmd h⟩

/-! ## A category without solutions -/

def bareDisk : Disk := Disk.empty.plantDirectory "data/raw/a"

def bareCatalog : Catalog := ⟨"data/raw", "edges", [⟨"a", [], 0⟩]⟩

theorem load_bareCatalog : Catalog.load bareDisk Config.default.catalog = .ok bareCatalog := by
  decide +kernel

theorem load_bareDisk : Config.load bareDisk = .ok Config.default := by decide +kernel

theorem refusals_exact_bare :
    let i : Invocation := ⟨.resolve 0, none⟩
    i.settings bareDisk = .ok Config.default ∧
      Catalog.load bareDisk Config.default.catalog = .ok bareCatalog ∧ i.command.TakesValue ∧
      ∃ f, i.run false bareDisk = .failed bareDisk f ∧ f.exitCode = .invalidInput := by
  intro i
  have hsettings : i.settings bareDisk = .ok Config.default := load_bareDisk
  have hindex : Refused (.ofCatalog bareCatalog Config.default.catalog)
      Config.default.inference.topK i.command .invalidInput := .index (by decide)
  obtain ⟨f, hf, hcode⟩ := (refusals_exact hsettings load_bareCatalog false).1 _ hindex
  refine ⟨hsettings, load_bareCatalog, trivial, f, hf, hcode.resolve_right ?_⟩
  rintro ⟨⟩

/-- A word that is no score and a start past the end of the range are values that the caller passed,
and they do not end with the exit code of failed input. -/
theorem refused_with_failure : ∃ i j : Invocation,
    Command.read ["rank", "--scores", "x"] = .ok i ∧
      Command.read ["build", "--start", "9"] = .ok j ∧
      i.settings bareDisk = .ok Config.default ∧ j.settings bareDisk = .ok Config.default ∧
      Catalog.load bareDisk Config.default.catalog = .ok bareCatalog ∧
      i.run false bareDisk = .failed bareDisk (.badScore "x") ∧
      j.run false bareDisk = .failed bareDisk (.startPastEnd 9 0) ∧
      (Failure.badScore "x").exitCode = .failure ∧
      (Failure.startPastEnd 9 0).exitCode = .failure := by
  refine ⟨⟨.rank "x" none, none⟩, ⟨.build 9 none none, none⟩, by decide +kernel, by decide +kernel,
    load_bareDisk, load_bareDisk, load_bareCatalog, ?_, ?_, rfl, rfl⟩
  · have hword : readScores (scoreWords "x") = .error (.badScore "x") := by decide +kernel
    have hrun := run_of_settings (d := bareDisk) (i := ⟨.rank "x" none, none⟩) load_bareDisk false
    exact hrun.trans (execute_rank_of_error hword false)
  · have hdataset : Dataset.load bareDisk Config.default =
        .ok ⟨.ofCatalog bareCatalog Config.default.catalog, _, _, none⟩ :=
      Dataset.load_eq_ok_iff.2
        ⟨SampleIndex.load_of_catalog load_bareCatalog, rfl, rfl, .inl ⟨rfl, rfl⟩⟩
    have hrun :=
      run_of_settings (d := bareDisk) (i := ⟨.build 9 none none, none⟩) load_bareDisk false
    exact hrun.trans (execute_build_of_lt hdataset false (by decide) none)

end Command

end TreeCorpus
