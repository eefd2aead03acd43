import TreeCorpus.Command.Run
import TreeCorpus.Proofs.Disk.Write
import TreeCorpus.Proofs.Outcome
import TreeCorpus.Proofs.Settings.InRange
import TreeCorpus.Proofs.Toml.Documents

/-!
# Settings that are saved are loaded

Every section decodes to the group it was written for, so the text of some settings is read as these
settings (`parse_of_text`); only a NaN loses its sign (`quiet`), and settings with a NaN are out of
range. Nothing is tested before settings are saved, and everything before they are loaded: what was
saved loads as what the test of it says, and saving that again changes nothing (`reload_exact`).
-/

namespace TreeCorpus

open Number Toml

/-! ## Sections -/

theorem size?_integer (n : Nat) : Value.size? (.integer n) = some n := by
  show (if 0 ≤ (n : Int) then some (n : Int).toNat else none) = some n
  rw [if_pos (Int.natCast_nonneg n), Int.toNat_natCast]

theorem list?_text (xs : List String) :
    Value.list? Value.text? (.array (xs.map .string)) = some xs := by
  show (xs.map Value.string).mapM Value.text? = some xs
  rw [List.mapM_map]
  exact (Json.mapM_eq_some id fun _ _ => rfl).trans (by rw [List.map_id])

@[simp]
theorem fields?_table (origin : Origin) (es : Entries) (names : List String) :
    (Value.table origin es).fields? names = some (names.map fun n => es.lookup n) := rfl

@[simp]
theorem text?_string (s : String) : (Value.string s).text? = some s := rfl

@[simp]
theorem double?_float (x : Double) : (Value.float x).double? = some x := rfl

@[simp]
theorem alternative?_string (s : String) : (Value.string s).alternative? = some s := rfl

section

variable {α : Type} (decode : Value → Option α)

@[simp]
theorem orElse_none (absent : α) : Value.orElse decode absent none = some absent := rfl

@[simp]
theorem orElse_some (absent : α) (v : Value) :
    Value.orElse decode absent (some v) = decode v := rfl

@[simp]
theorem optional_none : Value.optional decode none = some none := rfl

@[simp]
theorem optional_some (v : Value) :
    Value.optional decode (some v) = (decode v).map some := rfl

end

theorem CatalogSettings.ofValue?_entries (s : CatalogSettings) :
    ofValue? (.table .header s.entries) = some s := by
  obtain ⟨root, strategy, pageSize, extension, categories, categoryLimit, perCategoryLimit⟩ := s
  cases categoryLimit <;> cases perCategoryLimit <;>
    simp [ofValue?, entries, List.lookup_cons, size?_integer, list?_text,
      IndexStrategy.ofName?_name]

theorem FeatureSettings.ofValue?_entries (s : FeatureSettings) :
    ofValue? (.table .header s.entries) = some s := by
  obtain ⟨dimension, sidecarExtension, table⟩ := s
  cases table <;> simp [ofValue?, entries, List.lookup_cons, size?_integer]

theorem measuresOfValue?_entries (m : LayoutMeasures Double) :
    measuresOfValue? (.table .header (measureEntries m)) = some m := by
  simp [measuresOfValue?, measureEntries, List.lookup_cons]

theorem InferenceSettings.ofValue?_entries (s : InferenceSettings) :
    ofValue? (.table .header s.entries) = some s := by
  obtain ⟨topK, model⟩ := s
  cases model <;> simp [ofValue?, entries, List.lookup_cons, size?_integer]

theorem DatasetSettings.ofValue?_entries (s : DatasetSettings) :
    ofValue? (.table .header s.entries) = some s := by
  obtain ⟨workers⟩ := s
  cases workers <;> simp [ofValue?, entries, List.lookup_cons, size?_integer]

/-! ## What the sections hold -/

theorem isWritten_string (s : String) : IsWritten (.string s) := .scalar (.string s)

theorem isWritten_integer (n : Int) : IsWritten (.integer n) := .scalar (.integer n)

theorem isWritten_texts (xs : List String) : IsWritten (.array (xs.map .string)) := by
  refine .array fun v hv => ?_
  obtain ⟨s, -, rfl⟩ := List.mem_map.1 hv
  exact .string s

theorem CatalogSettings.tidySection (s : CatalogSettings) : TidySection ("catalog", s.entries) := by
  obtain ⟨root, strategy, pageSize, extension, categories, categoryLimit, perCategoryLimit⟩ := s
  cases categoryLimit <;> cases perCategoryLimit <;>
    exact ⟨show IsBareKey "catalog" by decide, by simp [entries]; decide, by simp [entries],
      by simp [entries, isWritten_string, isWritten_integer, isWritten_texts]⟩

theorem FeatureSettings.tidySection (s : FeatureSettings) :
    TidySection ("features", s.entries) := by
  obtain ⟨dimension, sidecarExtension, table⟩ := s
  cases table <;>
    exact ⟨show IsBareKey "features" by decide, by simp [entries]; decide, by simp [entries],
      by simp [entries, isWritten_string, isWritten_integer]⟩

theorem tidySection_measures {m : LayoutMeasures Double}
    (h : (m.width.isNaN = true → m.width = Binary.nan false) ∧
      (m.levelGap.isNaN = true → m.levelGap = Binary.nan false)) :
    TidySection ("layout", measureEntries m) where
  bare_name := show IsBareKey "layout" by decide
  bare_key := by
    simp [measureEntries]
    decide
  nodup_keys := by simp [measureEntries]
  written := by
    simp only [measureEntries, List.mem_cons, List.not_mem_nil, or_false, forall_eq_or_imp,
      forall_eq]
    exact ⟨.scalar (.float h.1), .scalar (.float h.2)⟩

theorem InferenceSettings.tidySection (s : InferenceSettings) :
    TidySection ("inference", s.entries) := by
  obtain ⟨topK, model⟩ := s
  cases model <;>
    exact ⟨show IsBareKey "inference" by decide, by simp [entries]; decide, by simp [entries],
      by simp [entries, isWritten_string, isWritten_integer]⟩

theorem DatasetSettings.tidySection (s : DatasetSettings) : TidySection ("dataset", s.entries) := by
  obtain ⟨workers⟩ := s
  have hname : IsBareKey "dataset" := by decide
  cases workers with
  | none => exact ⟨hname, by simp [entries], by simp [entries], by simp [entries]⟩
  | some n =>
    exact ⟨hname, by simp [entries]; decide, by simp [entries],
      by simp [entries, isWritten_integer]⟩

namespace Config

variable {c c' : Config} {d d' : Disk} {path s : String}

/-- The tables of all sections decode to the settings. -/
theorem ofEntries?_sections (c : Config) :
    ofEntries? (c.sections.map fun s => (s.1, .table .header s.2)) = some c := by
  simp [ofEntries?, sections, List.lookup_cons, CatalogSettings.ofValue?_entries,
    FeatureSettings.ofValue?_entries, measuresOfValue?_entries, InferenceSettings.ofValue?_entries,
    DatasetSettings.ofValue?_entries]

/-! ## Measures that are no numbers -/

/-- The number that the text of a float is read as: a NaN loses its sign and all else but being
one. -/
def quiet (x : Double) : Double := if x.isNaN then Binary.nan false else x

/-- The settings that their text is read as. -/
def reread (c : Config) : Config :=
  { c with layout := ⟨quiet c.layout.width, quiet c.layout.levelGap⟩ }

theorem eq_nan_of_quiet {x : Double} (h : (quiet x).isNaN = true) : quiet x = Binary.nan false := by
  unfold quiet at h ⊢
  split at h
  · rename_i hx
    rw [if_pos hx]
  · rename_i hx
    exact absurd h hx

theorem not_isPositive_of_isNaN {x : Double} (h : x.isNaN = true) : isPositive x = false := by
  unfold isPositive
  rw [not_isFinite_of_isNaN h, Bool.false_and]

theorem isPositive_quiet (x : Double) : isPositive (quiet x) = isPositive x := by
  unfold quiet
  split
  · rename_i h
    rw [not_isPositive_of_isNaN h]
    decide
  · rfl

theorem quiet_of_isPositive {x : Double} (h : isPositive x = true) : quiet x = x := by
  refine if_neg fun hnan => ?_
  rw [not_isPositive_of_isNaN hnan] at h
  exact absurd h (by decide)

/-- The test cannot tell the settings that are read from those that were written. -/
theorem validate_reread (c : Config) : c.reread.validate = c.validate := by
  have hfault : c.reread.fault? = c.fault? := by
    unfold fault? reread
    simp only [isPositive_quiet]
  unfold validate
  rw [hfault]
  cases h : c.fault? with
  | some fault => rfl
  | none =>
    have hrange := fault?_eq_none_iff.1 h
    have hsame : c.reread = c := by
      unfold reread
      rw [quiet_of_isPositive hrange.isPositive_width,
        quiet_of_isPositive hrange.isPositive_levelGap]
    rw [hsame]

theorem floatText_quiet (x : Double) : floatText (quiet x) = floatText x := by
  unfold quiet
  split
  · rename_i h
    rw [floatText_of_isNaN h, floatText_of_isNaN (by decide)]
  · rfl

/-- Settings and those that their text is read as have the same text. -/
theorem documentText?_reread (c : Config) :
    documentText? c.reread.sections = documentText? c.sections := by
  have hlayout : sectionText? "layout" (measureEntries c.reread.layout) =
      sectionText? "layout" (measureEntries c.layout) := by
    simp [sectionText?, measureEntries, pairText?, valueText?, scalarText?, reread, floatText_quiet]
  unfold documentText? sections
  simp only [List.mapM_cons, hlayout]
  rfl

/-! ## The text of the settings -/

theorem tidy_sections (c : Config) : Tidy c.reread.sections where
  nodup_names := by simp [sections]
  tidy := by
    simp only [sections, List.mem_cons, List.not_mem_nil, or_false, forall_eq_or_imp, forall_eq]
    exact ⟨c.catalog.tidySection, c.features.tidySection,
      tidySection_measures ⟨eq_nan_of_quiet, eq_nan_of_quiet⟩, c.inference.tidySection,
      c.dataset.tidySection⟩

/-- The text of settings is read as what the test of them says. -/
theorem parse_of_text (h : c.text = .ok s) : parse s = c.validate := by
  have hdocument : documentText? c.sections = some s := by
    unfold text at h
    split at h
    · rename_i hs
      rw [hs, Except.ok.inj h]
    · exact absurd h (by simp)
  rw [← documentText?_reread] at hdocument
  unfold parse
  rw [entriesOfText?_documentText c.tidy_sections hdocument, Option.bind_some, ofEntries?_sections]
  exact c.validate_reread

/-- The sizes among the settings. -/
def sizes (c : Config) : List Nat :=
  c.catalog.pageSize :: c.catalog.categoryLimit.toList ++ c.catalog.perCategoryLimit.toList ++
    [c.features.dimension, c.inference.topK] ++ c.dataset.workers.toList

/-- The integers in the sections are the sizes. -/
theorem exists_holds_iff {k : Int} :
    (∃ s ∈ c.reread.sections, ∃ e ∈ s.2, e.2.Holds k) ↔ ∃ n ∈ c.sizes, (n : Int) = k := by
  simp [sections, reread, CatalogSettings.entries, FeatureSettings.entries, measureEntries,
    InferenceSettings.entries, DatasetSettings.entries, sizes, Value.Holds, or_and_right, exists_or,
    or_assoc]

/-- Settings have no text exactly when one of the sizes is beyond the largest integer of 64 bits
with a sign. -/
theorem text_eq_error_iff {e : Error} :
    c.text = .error e ↔ e = .config .sizeTooLarge ∧ ∃ n ∈ c.sizes, Int64.maxValue.toInt < n := by
  have hfits (n : Nat) : fitsSigned n = false ↔ Int64.maxValue.toInt < n := by
    simp [fitsSigned]
  have hnone : documentText? c.sections = none ↔ ∃ n ∈ c.sizes, Int64.maxValue.toInt < n := by
    rw [← documentText?_reread,
      documentText?_eq_none_iff fun s hs => (c.tidy_sections.tidy s hs).written]
    constructor
    · rintro ⟨s, hs, e, he, k, hholds, hk⟩
      obtain ⟨n, hn, rfl⟩ := exists_holds_iff.1 ⟨s, hs, e, he, hholds⟩
      exact ⟨n, hn, (hfits n).1 hk⟩
    · rintro ⟨n, hn, hlt⟩
      obtain ⟨s, hs, e, he, hholds⟩ := exists_holds_iff.2 ⟨n, hn, rfl⟩
      exact ⟨s, hs, e, he, n, hholds, (hfits n).2 hlt⟩
  rw [← hnone]
  unfold text
  split
  · rename_i hs
    simp [hs]
  · rename_i hs
    simp [hs, eq_comm]

/-! ## Saving and loading -/

/-- The disk after saving: a failure leaves it as it was. -/
def diskAfterSave (d : Disk) (path : String) (c : Config) : Disk := (save d path c).toOption.getD d

theorem save_eq_ok_iff :
    save d path c = .ok d' ↔ ∃ s, c.text = .ok s ∧ d.writeText path s = .ok d' := by
  unfold save
  cases c.text with
  | error e => simp
  | ok s => simp [mapError_eq_ok_iff]

/-- Without a text nothing is written. -/
theorem save_of_text_error {e : Error} (h : c.text = .error e) (d : Disk) (path : String) :
    save d path c = .error e ∧ diskAfterSave d path c = d := by
  have hsave : save d path c = .error e := by
    unfold save
    rw [h]
  refine ⟨hsave, ?_⟩
  unfold diskAfterSave
  rw [hsave]
  rfl

theorem readContent_of_save (hd : d.Sound) (h : save d path c = .ok d') :
    ∃ s, c.text = .ok s ∧ d'.readContent path = .ok (.text s) := by
  obtain ⟨s, htext, hwrite⟩ := save_eq_ok_iff.1 h
  exact ⟨s, htext, hd.readContent_of_writeContent hwrite⟩

/-- A file with the text of some settings is loaded as what the test of them says. -/
theorem loadFile_of_readContent (htext : c.text = .ok s)
    (h : d.readContent path = .ok (.text s)) : loadFile d path = c.validate := by
  unfold loadFile Disk.read Disk.readText
  rw [h]
  exact parse_of_text htext

theorem pathExists_of_readContent {content : Content} (h : d.readContent path = .ok content) :
    d.pathExists path = true := by
  unfold Disk.readContent at h
  unfold Disk.pathExists
  split at h
  · rename_i hitem
    rw [hitem]
  · exact absurd h (by simp)
  · exact absurd h (by simp)

/-- A settings file with the text of some settings is loaded as what the test of them says. -/
theorem load_of_readContent (htext : c.text = .ok s)
    (h : d.readContent settingsFile = .ok (.text s)) : load d = c.validate := by
  unfold load
  rw [if_pos (pathExists_of_readContent h)]
  exact loadFile_of_readContent htext h

/-- What is read at a path depends only on where it leads. -/
theorem readContent_congr {path' : String} (h : d.resolve path = d.resolve path') :
    d.readContent path = d.readContent path' := by
  unfold Disk.readContent Disk.item?
  rw [h]

/-- Settings that were saved can be saved again at their path, and the file stays as it is. -/
theorem exists_save_again (hd : d.Sound) (h : save d path c = .ok d') :
    ∃ d'', save d' path c = .ok d'' ∧ d''.readContent path = d'.readContent path := by
  obtain ⟨s, htext, hwrite⟩ := save_eq_ok_iff.1 h
  obtain ⟨d'', hagain⟩ := hd.exists_writeContent_again hwrite (.text s)
  refine ⟨d'', save_eq_ok_iff.2 ⟨s, htext, hagain⟩, ?_⟩
  rw [hd.readContent_of_writeContent hwrite,
    (hd.writeContent hwrite).readContent_of_writeContent hagain]

end Config

namespace Command

variable {d : Disk} {colors force : Bool} {config : Option String}

theorem run_init : (⟨.init force, config⟩ : Invocation).run colors d = runInit colors d force := rfl

/-- The default settings are what is loaded after they were written. -/
theorem load_of_init (hd : d.Sound) {code : ExitCode}
    (h : (runInit colors d force).result = .ok code) :
    Config.load (runInit colors d force).disk = .ok Config.default := by
  unfold runInit at h ⊢
  split
  · rename_i hexists
    rw [if_pos hexists] at h
    exact absurd h (by simp [Outcome.failed])
  · rename_i hexists
    rw [if_neg hexists] at h
    cases hsave : Config.save d settingsFile Config.default with
    | error e =>
      rw [hsave] at h
      exact absurd h (by simp [Outcome.failed])
    | ok d' =>
      obtain ⟨s, htext, hread⟩ := Config.readContent_of_save hd hsave
      have hload : Config.load d' = Config.default.validate :=
        Config.load_of_readContent htext hread
      exact hload.trans <| Config.validate_eq_ok_iff.2 ⟨Config.fault?_default, rfl⟩

end Command

namespace Config

variable {c c' : Config} {d d' : Disk} {path s : String}

/-- Settings without a text leave the disk as it was; a size beyond the integers of the format is
all that keeps them from having one. Settings that were saved, in range or not, load as what the test
of them says, also as those of the working directory if the path leads to its settings file, and
saving what was loaded leaves the file as it is. Unless it is forced to, writing the default settings
never touches settings that are there; where it succeeds, they are loaded afterwards. -/
theorem reload_exact (hd : d.Sound) (c : Config) (path : String) :
    (∀ e, c.text = .error e ↔
      e = .config .sizeTooLarge ∧ ∃ n ∈ c.sizes, Int64.maxValue.toInt < n) ∧
    (∀ e, c.text = .error e → save d path c = .error e ∧ diskAfterSave d path c = d) ∧
    (∀ d', save d path c = .ok d' →
      loadFile d' path = c.validate ∧
      (d'.resolve path = d'.resolve settingsFile → load d' = c.validate) ∧
      ∀ c', loadFile d' path = .ok c' →
        ∃ d'', save d' path c' = .ok d'' ∧ d''.readContent path = d'.readContent path) ∧
    ∀ (colors : Bool) (config : Option String),
      (d.pathExists settingsFile = true →
        (⟨.init false, config⟩ : Invocation).run colors d = .failed d .settingsExist) ∧
      ∀ force code, ((⟨.init force, config⟩ : Invocation).run colors d).result = .ok code →
        load ((⟨.init force, config⟩ : Invocation).run colors d).disk = .ok default := by
  refine ⟨fun e => text_eq_error_iff, fun e he => save_of_text_error he d path, fun d' hsave => ?_,
    fun colors config => ⟨fun hexists => ?_, fun force code hcode => ?_⟩⟩
  · obtain ⟨s, htext, hread⟩ := readContent_of_save hd hsave
    have hload := loadFile_of_readContent htext hread
    refine ⟨hload, fun hsame => ?_, fun c' hc' => ?_⟩
    · exact load_of_readContent htext ((readContent_congr hsame).symm.trans hread)
    · obtain ⟨-, rfl⟩ := validate_eq_ok_iff.1 (hload.symm.trans hc')
      exact exists_save_again hd hsave
  · rw [Command.run_init]
    unfold Command.runInit
    rw [hexists]
    rfl
  · rw [Command.run_init] at hcode ⊢
    exact Command.load_of_init hd hcode

theorem exists_save_empty (h : ∀ n ∈ c.sizes, (n : Int) ≤ Int64.maxValue.toInt) :
    ∃ d', save Disk.empty settingsFile c = .ok d' := by
  cases htext : c.text with
  | error e =>
    obtain ⟨-, n, hn, hlt⟩ := text_eq_error_iff.1 htext
    exact absurd (h n hn) (Int.not_le.2 hlt)
  | ok s =>
    have hempty : ∃ d', Disk.empty.writeContent settingsFile (.text "") = .ok d' := ⟨_, rfl⟩
    obtain ⟨d', hwrite⟩ := Disk.sound_empty.exists_writeContent hempty (.text s)
    exact ⟨d', save_eq_ok_iff.2 ⟨s, htext, hwrite⟩⟩

/-- A working directory whose settings file is no text. -/
def binaryDisk : Disk := Disk.empty.put ["work", settingsFile] (.file (.binary [0xFF]))

/-- Settings in range, settings out of range, settings without a text, and settings that are there
already. -/
theorem reload_exact_empty :
    let outOfRange : Config := { inference := { topK := 0 } }
    let tooLarge : Config := { inference := { topK := 9223372036854775808 } }
    Disk.empty.Sound ∧ binaryDisk.Sound ∧
      (∃ d', save Disk.empty settingsFile default = .ok d' ∧ load d' = .ok default ∧
        ∃ d'', save d' settingsFile default = .ok d'' ∧
          d''.readContent settingsFile = d'.readContent settingsFile) ∧
      (∃ d', save Disk.empty settingsFile outOfRange = .ok d' ∧
        loadFile d' settingsFile = .error (.config .topK)) ∧
      save Disk.empty settingsFile tooLarge = .error (.config .sizeTooLarge) ∧
      (∃ code, ((⟨.init false, none⟩ : Invocation).run false Disk.empty).result = .ok code ∧
        load ((⟨.init false, none⟩ : Invocation).run false Disk.empty).disk = .ok default) ∧
      (⟨.init false, none⟩ : Invocation).run false binaryDisk =
        .failed binaryDisk .settingsExist := by
  intro outOfRange tooLarge
  have hempty := Disk.sound_empty
  have hbinary : binaryDisk.Sound := hempty.put (by decide) (by decide) _
  have hvalid : default.validate = .ok default := validate_eq_ok_iff.2 ⟨fault?_default, rfl⟩
  have hinvalid : outOfRange.validate = .error (.config .topK) := by decide +kernel
  obtain ⟨d', hsave⟩ := exists_save_empty (c := default) (by decide)
  obtain ⟨e, hsaved⟩ := exists_save_empty (c := outOfRange) (by decide)
  obtain ⟨-, -, hreload, hinit⟩ := reload_exact hempty default settingsFile
  obtain ⟨hloadFile, hload, hagain⟩ := hreload d' hsave
  obtain ⟨hfaulty, -⟩ := (reload_exact hempty outOfRange settingsFile).2.2.1 e hsaved
  obtain ⟨htext, hfailed, -⟩ := reload_exact hempty tooLarge settingsFile
  have hlarge := (htext _).2 ⟨rfl, 9223372036854775808, by decide, by decide⟩
  refine ⟨hempty, hbinary, ⟨d', hsave, (hload rfl).trans hvalid, ?_⟩,
    ⟨e, hsaved, hfaulty.trans hinvalid⟩, (hfailed _ hlarge).1, ⟨.success, ?_⟩, ?_⟩
  · exact hagain default (hloadFile.trans hvalid)
  · have hnone : Disk.empty.pathExists settingsFile = false := by decide
    have hcode :
        ((⟨.init false, none⟩ : Invocation).run false Disk.empty).result = .ok .success := by
      rw [Command.run_init]
      unfold Command.runInit
      rw [hnone, hsave]
      rfl
    exact ⟨hcode, (hinit false none).2 false .success hcode⟩
  · exact ((reload_exact hbinary default settingsFile).2.2.2 false none).1 (by decide)

end Config

end TreeCorpus
