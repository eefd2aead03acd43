import TreeCorpus.Command.Run
import TreeCorpus.Proofs.Dataset.Failures
import TreeCorpus.Proofs.Dataset.Record

/-!
# Building a range

The end of a range is cut to the size of the dataset. A range that starts past its end is refused
before anything is printed or written. Any other is built as a whole: every index in it resolves, so
a failure is one of the files of a solution (`failsWith_buildSample`). The report is printed and the
samples are written whether or not others failed; only the file that they are written to can stop
the command, and the exit code tells whether all samples were built (`build_exact`).
-/

namespace TreeCorpus

open Console

/-! ## Files that can be written -/

namespace Disk

variable {d : Disk} {path : String} {fault : DiskFault}

/-- A file can be written at the path. -/
def Writable (d : Disk) (path : String) : Prop := ∃ e, d.writeText path "" = .ok e

/-- Why a file cannot be written does not depend on what is written. -/
theorem writeContent_eq_error {c : Content} (h : d.writeContent path c = .error fault)
    (c' : Content) : d.writeContent path c' = .error fault := by
  unfold writeContent at h ⊢
  split at h
  · split at h
    · rename_i hdir
      rw [if_pos hdir]
      exact h
    · exact absurd h (by simp)
  · exact absurd h (by simp)
  · exact h
  · exact h
  · exact h

end Disk

namespace Record

variable {d d' : Disk} {path : String} {n : Nat}

/-- Samples cannot be written exactly where no file can be written. -/
theorem save_eq_error_iff {samples : List Sample} {e : Error} :
    save d path samples = .error e ↔
      ∃ fault, d.writeText path "" = .error fault ∧ e = .ofDisk path fault := by
  unfold save
  cases hw : d.writeText path (text (samples.map ofSample)) with
  | error fault =>
    have hempty : d.writeText path "" = .error fault := Disk.writeContent_eq_error hw _
    simp [hempty, eq_comm]
  | ok d' =>
    simp only [reduceCtorEq, false_iff]
    rintro ⟨fault, hfault, -⟩
    exact absurd (hw.symm.trans (Disk.writeContent_eq_error hfault _)) (by simp)

/-- A file that samples were written to has a line for each of them. -/
theorem lines_of_save (hd : d.Sound) {samples : List Sample}
    (h : save d path samples = .ok (d', n)) :
    ∃ t, d'.readContent path = .ok (.text t) ∧
      Text.lines t = samples.map fun s => (ofSample s).line := by
  refine ⟨_, (of_save hd h).2, ?_⟩
  rw [lines_text, List.map_map]
  rfl

end Record

/-! ## The samples and failures of a range -/

namespace Dataset

variable {a : Dataset} {d : Disk} {start stop i : Nat}

/-- The samples of a range are those of its indexes that can be built, in their order. -/
theorem samples_buildRange (a : Dataset) (d : Disk) (start stop : Nat) :
    (a.buildRange d start stop).samples =
      (List.range' start (stop - start)).filterMap fun i => (a.buildSample d i).toOption := by
  unfold buildRange BatchReport.samples
  rw [List.filterMap_map]
  congr 1
  funext i
  simp only [Function.comp_apply, buildIsolated_eq]
  cases a.buildSample d i <;> rfl

/-- No index of a range failed exactly if all of them can be built. -/
theorem failures_buildRange_eq_nil_iff :
    (a.buildRange d start stop).failures = [] ↔
      ∀ i, start ≤ i → i < stop → ∃ s, a.buildSample d i = .ok s := by
  rw [List.eq_nil_iff_forall_not_mem]
  constructor
  · intro h i hstart hstop
    cases hs : a.buildSample d i with
    | ok s => exact ⟨s, rfl⟩
    | error e =>
      have hisolated := buildIsolated_eq a d i
      rw [hs] at hisolated
      exact absurd (mem_failures_buildRange_iff.2 ⟨i, ⟨hstart, hstop⟩, hisolated⟩) (h _)
  · intro h f hf
    obtain ⟨i, ⟨hstart, hstop⟩, hisolated⟩ := mem_failures_buildRange_iff.1 hf
    obtain ⟨s, hs⟩ := h i hstart hstop
    rw [buildIsolated_eq, hs] at hisolated
    exact absurd hisolated (by simp [Except.mapError])

/-- An index below the size of a dataset has a solution, so its sample fails because of the files of
that. -/
theorem failsWith_buildSample {d₀ : Disk} {c : Config} (ha : load d₀ c = .ok a) (d : Disk)
    (hi : i < a.size) : FailsWith (sampleKinds ++ tableKinds) (a.buildSample d i) := by
  obtain ⟨hformed, -, -⟩ := of_load ha
  obtain ⟨sol, hresolve, hholds, -⟩ := hformed.resolve_of_lt hi
  have hordinal : sol.category.ordinal < a.index.catalog.size := by
    rw [← Catalog.category?_isSome, hholds.category?_eq]
    rfl
  unfold buildSample
  rw [hresolve]
  refine failsWith_buildSolution hordinal (by simp [sampleKinds])
    ((failsWith_buildGraph ha d sol).mono ?_)
  split
  · exact List.Subset.refl _
  · simp

theorem cause_ne_indexOutOfRange {d₀ : Disk} {c : Config} {f : SampleFailure}
    (ha : load d₀ c = .ok a) (hstop : stop ≤ a.size)
    (hf : f ∈ (a.buildRange d start stop).failures) (index total : Nat) :
    f.cause ≠ .indexOutOfRange index total := by
  obtain ⟨i, hi, hisolated⟩ := mem_failures_buildRange_iff.1 hf
  have hkinds := failsWith_buildSample ha d (Nat.lt_of_lt_of_le hi.2 hstop)
  rw [buildIsolated_eq] at hisolated
  intro hcause
  cases hs : a.buildSample d i with
  | ok s =>
    rw [hs] at hisolated
    exact absurd hisolated (by simp [Except.mapError])
  | error e =>
    rw [hs] at hisolated
    obtain rfl := Except.error.inj hisolated
    have hkind := hkinds e hs
    rw [show e = .indexOutOfRange index total from hcause] at hkind
    simp [Error.kind, sampleKinds, fileKinds, tableKinds] at hkind

end Dataset

/-! ## The command -/

namespace Command

/-- What the build command does with a range that does not start past its end. -/
structure BuildsRange (a : Dataset) (colors : Bool) (d : Disk) (start stop : Nat)
    (output : Option String) (o : Outcome) : Prop where
  /-- The report that is printed has an entry for each index of the range. -/
  covers : (a.buildRange d start stop).results.map Prod.fst = List.range' start (stop - start)
  cause_ne : ∀ f ∈ (a.buildRange d start stop).failures, ∀ index total,
    f.cause ≠ .indexOutOfRange index total
  prints : batchLines colors (a.buildRange d start stop) <+: o.lines
  fails_iff : ∀ f, o.result = .error f ↔
    ∃ path fault, output = some path ∧ d.writeText path "" = .error fault ∧
      f = .writing path (.ofDisk path fault)
  exit_iff : ∀ code, o.result = .ok code →
    (code.number = 0 ↔ ∀ i, start ≤ i → i < stop → ∃ s, a.buildSample d i = .ok s) ∧
    (code.number = 3 ↔ ∃ i, start ≤ i ∧ i < stop ∧ ∃ e, a.buildSample d i = .error e)
  saves : ∀ path, output = some path → d.Writable path →
    ∃ samples t,
      samples = (List.range' start (stop - start)).filterMap
        (fun i => (a.buildSample d i).toOption) ∧
      o.disk.readContent path = .ok (.text t) ∧
      Text.lines t = samples.map (fun s => (Record.ofSample s).line) ∧
      o.lines = batchLines colors (a.buildRange d start stop) ++
        [s!"Saved {samples.length} samples to {path}"]
  keeps : output = none → o.disk = d

variable {a : Dataset} {d : Disk} {c : Config} {start stop : Nat}

/-- The exit code of a batch tells whether all samples of its range were built. -/
theorem number_batchExit (a : Dataset) (d : Disk) (start stop : Nat) :
    ((batchExit (a.buildRange d start stop)).number = 0 ↔
      ∀ i, start ≤ i → i < stop → ∃ s, a.buildSample d i = .ok s) ∧
    ((batchExit (a.buildRange d start stop)).number = 3 ↔
      ∃ i, start ≤ i ∧ i < stop ∧ ∃ e, a.buildSample d i = .error e) := by
  have hfailed : (∃ i, start ≤ i ∧ i < stop ∧ ∃ e, a.buildSample d i = .error e) ↔
      ¬ ∀ i, start ≤ i → i < stop → ∃ s, a.buildSample d i = .ok s := by
    simp only [Classical.not_forall, exists_prop]
    refine exists_congr fun i => and_congr_right fun _ => and_congr_right fun _ => ?_
    cases a.buildSample d i <;> simp
  rw [hfailed, ← Dataset.failures_buildRange_eq_nil_iff, batchExit]
  cases (a.buildRange d start stop).failures <;> simp [ExitCode.number]

section

variable (ha : Dataset.load d c = .ok a) (hstop : stop ≤ a.size) (colors : Bool)

include ha hstop

/-- Without a file only the report is printed. -/
theorem buildsRange_of_none :
    BuildsRange a colors d start stop none
      ⟨batchLines colors (a.buildRange d start stop), d,
        .ok (batchExit (a.buildRange d start stop))⟩ where
  covers := Dataset.map_fst_buildRange a d start stop
  cause_ne _ hf := Dataset.cause_ne_indexOutOfRange ha hstop hf
  prints := List.prefix_refl _
  fails_iff := by simp
  exit_iff := by
    rintro code ⟨⟩
    exact number_batchExit a d start stop
  saves := by simp
  keeps _ := rfl

/-- A file that cannot be written ends the command after the report. -/
theorem buildsRange_of_save_eq_error {path : String} {e : Error}
    (hsave : Record.save d path (a.buildRange d start stop).samples = .error e) :
    BuildsRange a colors d start stop (some path)
      ⟨batchLines colors (a.buildRange d start stop), d, .error (.writing path e)⟩ := by
  obtain ⟨fault, hfault, rfl⟩ := Record.save_eq_error_iff.1 hsave
  refine ⟨Dataset.map_fst_buildRange a d start stop,
    fun _ hf => Dataset.cause_ne_indexOutOfRange ha hstop hf, List.prefix_refl _, fun f => ?_,
    by simp, ?_, fun _ => rfl⟩
  · simp [hfault, eq_comm]
  · rintro path' ⟨⟩ ⟨d', hd'⟩
    exact absurd (hd'.symm.trans hfault) (by simp)

/-- Samples that were written have a line each in the file. -/
theorem buildsRange_of_save {path : String} {d' : Disk} {n : Nat} (hd : d.Sound)
    (hsave : Record.save d path (a.buildRange d start stop).samples = .ok (d', n)) :
    BuildsRange a colors d start stop (some path)
      ⟨batchLines colors (a.buildRange d start stop) ++ [s!"Saved {n} samples to {path}"], d',
        .ok (batchExit (a.buildRange d start stop))⟩ := by
  obtain ⟨t, hread, hlines⟩ := Record.lines_of_save hd hsave
  obtain ⟨rfl, -⟩ := Record.of_save hd hsave
  have hwrites (fault : DiskFault) : d.writeText path "" ≠ .error fault := by
    intro hfault
    exact absurd (hsave.symm.trans (Record.save_eq_error_iff.2 ⟨fault, hfault, rfl⟩)) (by simp)
  refine ⟨Dataset.map_fst_buildRange a d start stop,
    fun _ hf => Dataset.cause_ne_indexOutOfRange ha hstop hf, List.prefix_append _ _, fun f => ?_,
    ?_, ?_, by simp⟩
  · simp [hwrites]
  · rintro code ⟨⟩
    exact number_batchExit a d start stop
  · rintro path' ⟨⟩ -
    exact ⟨_, t, Dataset.samples_buildRange a d start stop, hread, hlines, rfl⟩

end

/-- A range that starts past its end is refused. -/
theorem execute_build_of_lt (ha : Dataset.load d c = .ok a) (colors : Bool) {stop : Option Nat}
    (hlt : min (stop.getD a.size) a.size < start) (output : Option String) :
    execute colors d c (.build start stop output) =
      .failed d (.startPastEnd start (min (stop.getD a.size) a.size)) := by
  show runBuild colors d c start stop output = _
  unfold runBuild
  simp only [ha]
  exact if_pos hlt

/-- A range that starts past its end, which is cut to the size of the dataset, is refused. Every
other one is reported, and its samples are written if a file is named that can be written. -/
theorem build_exact (hd : d.Sound) (ha : Dataset.load d c = .ok a) (colors : Bool) (start : Nat)
    (stop : Option Nat) (output : Option String) :
    let last := min (stop.getD a.size) a.size
    let o := execute colors d c (.build start stop output)
    (last < start → o = .failed d (.startPastEnd start last)) ∧
      (start ≤ last → BuildsRange a colors d start last output o) := by
  intro last o
  refine ⟨fun hlt => execute_build_of_lt ha colors hlt output, fun hle => ?_⟩
  have hlast : min (stop.getD a.size) a.size = last := rfl
  have ho : o = runBuild colors d c start stop output := rfl
  have hstop : last ≤ a.size := Nat.min_le_right _ _
  clear_value last o
  subst ho
  unfold runBuild
  simp only [ha, hlast]
  rw [if_neg (Nat.not_lt.2 hle)]
  cases output with
  | none => exact buildsRange_of_none ha hstop colors
  | some path =>
    cases hsave : Record.save d path (a.buildRange d start last).samples with
    | error e =>
      dsimp only
      rw [hsave]
      exact buildsRange_of_save_eq_error ha hstop colors hsave
    | ok saved =>
      dsimp only
      rw [hsave]
      exact buildsRange_of_save ha hstop colors hd hsave

/-! ## A page with one file -/

/-- Settings for a page of two solutions, of which only the first one has a file. -/
def halfSettings : Config :=
  { catalog := { root := "r", strategy := .fixedPage, pageSize := 2, categories := ["a"] },
    features := { dimension := 1 } }

def halfDataset : Dataset := ⟨.ofCatalog soloCatalog halfSettings.catalog, 1, "features", none⟩

theorem load_halfDataset :
    Dataset.load (soloDisk "p: 1\nc: 0.5") halfSettings = .ok halfDataset := by
  have hcatalog :
      Catalog.load (soloDisk "p: 1\nc: 0.5") halfSettings.catalog = .ok soloCatalog := by
    decide +kernel
  unfold Dataset.load SampleIndex.load
  rw [hcatalog]
  rfl

theorem buildSample_halfDataset : ∃ s,
    halfDataset.buildSample (soloDisk "p: 1\nc: 0.5") 0 = .ok s ∧
      (Record.ofSample s).rows = [[⟨0x3F800000⟩], [⟨0x3F000000⟩]] := by
  obtain ⟨s, -, hs, hrows, -⟩ := Record.exists_soloRecord Record.soloRows_half
  obtain ⟨hi, hresolve, hgraph, hroot, hlabel⟩ := Dataset.buildSample_eq_ok_iff.1 hs
  have hsame : halfDataset.index.resolve 0 = soloDataset.index.resolve 0 := by decide +kernel
  have hbuilt := Dataset.buildSample_eq_ok_iff.2 ⟨hi, hsame.trans hresolve, hgraph, hroot, hlabel⟩
  exact ⟨s, hbuilt, hrows⟩

theorem buildSample_halfDataset_missing :
    halfDataset.buildSample (soloDisk "p: 1\nc: 0.5") 1 =
      .error (.fileNotFound "r/a/a-2.edges") := by
  rfl

/-- The sample of the one file is written although the other one of its page is missing. -/
theorem build_exact_half_page :
    let d := soloDisk "p: 1\nc: 0.5"
    let o := execute false d halfSettings (.build 0 (some 9) (some "out.jsonl"))
    d.Sound ∧ Dataset.load d halfSettings = .ok halfDataset ∧ halfDataset.size = 2 ∧
      BuildsRange halfDataset false d 0 2 (some "out.jsonl") o ∧
      o.result = .ok .partialFailure ∧
      (∃ t, o.disk.readContent "out.jsonl" = .ok (.text t) ∧ (Text.lines t).length = 1) ∧
      execute false d halfSettings (.build 3 none none) = .failed d (.startPastEnd 3 2) := by
  intro d o
  have hsound : d.Sound := Record.sound_soloDisk _
  have hsize : halfDataset.size = 2 := by decide +kernel
  have hwritable : d.Writable "out.jsonl" := ⟨_, rfl⟩
  have hbuilds : BuildsRange halfDataset false d 0 2 (some "out.jsonl") o :=
    (build_exact hsound load_halfDataset false 0 (some 9) (some "out.jsonl")).2 (by simp)
  obtain ⟨s, hs, -⟩ := buildSample_halfDataset
  have hok : ∃ code, o.result = .ok code := by
    cases ho : o.result with
    | ok code => exact ⟨code, rfl⟩
    | error f =>
      obtain ⟨path, fault, ⟨⟩, hfault, -⟩ := (hbuilds.fails_iff f).1 ho
      exact absurd (hwritable.choose_spec.symm.trans hfault) (by simp)
  obtain ⟨code, hcode⟩ := hok
  have hthree := (hbuilds.exit_iff code hcode).2.2
    ⟨1, by decide, by decide, _, buildSample_halfDataset_missing⟩
  obtain ⟨samples, t, hsamples, hread, hlines, -⟩ := hbuilds.saves _ rfl hwritable
  refine ⟨hsound, load_halfDataset, hsize, hbuilds, ?_, ⟨t, hread, ?_⟩, ?_⟩
  · rw [hcode]
    cases code with
    | partialFailure => rfl
    | _ => exact absurd hthree (by decide)
  · rw [hlines, hsamples]
    simp [List.range', hs, buildSample_halfDataset_missing, Except.toOption, d]
  · exact (build_exact hsound load_halfDataset false 3 none none).1 (by simp [hsize])

end Command

end TreeCorpus
