import TreeCorpus.Dataset.Record
import TreeCorpus.Proofs.Dataset.Sample
import TreeCorpus.Proofs.Disk.Write
import TreeCorpus.Proofs.Number.Text
import TreeCorpus.Proofs.Text.Lines

/-!
# Records that are written and read

The line of a record is one line of text that is not blank, whatever its strings and numbers are.
It reads as the record with each feature value as the reader finds it in the text (`ofLine?_line`):
a finite value is found to be a number and any other is not (`exists_reread?`, `reread?_eq_none`).
A file of such lines reads line by line, with blank lines between them or none (`load_of_spaced`).
So samples are read back as often as they were written exactly when their features are finite
(`load_saved_samples`), and files of finite samples can be joined (`load_joined_files`).
-/

namespace TreeCorpus.Record

open Number

/-! ## Feature values -/

section Values

variable {x : Single}

/-- What the reader finds in the text of a feature value. -/
def reread? (x : Single) : Option Single := (jsonOfSingle x).single?

def rereadRows? (rows : List (List Single)) : Option (List (List Single)) :=
  rows.mapM fun row => row.mapM reread?

theorem spelled_jsonOfSingle (x : Single) : (jsonOfSingle x).Spelled := by
  unfold jsonOfSingle
  cases h : x.isFinite with
  | false =>
    rw [text?_eq_none h]
    trivial
  | true =>
    obtain ⟨p, hp, htext⟩ := exists_parts_of_isFinite h
    rw [htext]
    exact ⟨p, hp.valid, String.toList_ofList⟩

/-- A finite value is read as some number. -/
theorem exists_reread? (h : x.isFinite = true) : ∃ y, reread? x = some y := by
  obtain ⟨p, hp, htext⟩ := exists_parts_of_isFinite h
  obtain ⟨y, hy⟩ := exists_single? hp
  refine ⟨y, ?_⟩
  unfold reread? jsonOfSingle
  rw [htext, Json.ofNumberText, String.toList_ofList, hy]

/-- A value that is not finite is not read as a number. -/
theorem reread?_eq_none (h : x.isFinite = false) : reread? x = none := by
  unfold reread? jsonOfSingle
  rw [text?_eq_none h]
  rfl

end Values

/-! ## The line of a record -/

section Line

variable {r : Record}

/-- All feature values are finite. -/
def HasFiniteRows (r : Record) : Prop := ∀ row ∈ r.rows, ∀ x ∈ row, x.isFinite = true

/-- The numbers of the record are sizes. -/
structure Fits (r : Record) : Prop where
  index_lt : r.index < sizeLimit
  number_lt : r.number < sizeLimit
  sources_lt : ∀ n ∈ r.sources, n < sizeLimit
  targets_lt : ∀ n ∈ r.targets, n < sizeLimit

theorem spelled_toJson (r : Record) : r.toJson.Spelled := by
  have hsizes (ns : List Nat) : (Json.array (ns.map Json.ofNat)).Spelled :=
    Json.spelled_array Json.spelled_ofNat ns
  have hvalues : ∀ v ∈ r.fieldValues, v.Spelled := by
    simp only [fieldValues, List.forall_mem_cons]
    exact ⟨Json.spelled_ofNat _, Json.spelled_ofString _, Json.spelled_ofNat _,
      Json.spelled_ofString _, Json.spelled_array Json.spelled_ofString _,
      Json.spelled_array (fun row => Json.spelled_array spelled_jsonOfSingle row) _,
      ⟨hsizes _, hsizes _, trivial⟩, hsizes _, fun _ h => absurd h List.not_mem_nil⟩
  exact Json.spelled_ofMembers fun m hm => hvalues m.2 (List.of_mem_zip hm).2

theorem exists_toList_line (r : Record) : ∃ cs, r.line.toList = '{' :: cs ++ ['}'] :=
  ⟨_, String.toList_ofList⟩

theorem newline_notMem_line (r : Record) : '\n' ∉ r.line.toList := by
  unfold line Json.write
  rw [String.toList_ofList]
  exact Json.newline_notMem_compact (spelled_toJson r)

theorem isEmpty_trim_line (r : Record) : (Text.trim r.line).isEmpty = false := by
  obtain ⟨cs, hcs⟩ := r.exists_toList_line
  rw [Bool.eq_false_iff, ne_eq, Text.isEmpty_trim_iff, hcs]
  intro h
  exact absurd (h '{' List.mem_cons_self) (by decide)

theorem withoutReturn_line (r : Record) : Text.withoutReturn r.line = r.line := by
  obtain ⟨cs, hcs⟩ := r.exists_toList_line
  have hlast : r.line.toList.getLast? = some '}' := by
    rw [hcs, List.getLast?_concat]
  apply Text.withoutReturn_eq_self
  rw [hlast]
  decide

/-- The line of a record is read as the record with the feature values that the reader finds. -/
theorem ofLine?_line (h : r.Fits) :
    ofLine? r.line = (rereadRows? r.rows).map fun rows => { r with rows } := by
  have hfields : r.toJson.fields? fieldNames = some r.fieldValues :=
    Json.fields?_ofMembers (by decide) rfl
  have hlabel : (Json.array ((r.label.map UInt8.toNat).map Json.ofNat)).list? Json.byte? =
      some r.label := by
    rw [List.map_map]
    exact Json.list?_array_of_eq Json.byte?_ofNat r.label
  have hrows : (Json.array (r.rows.map fun row => .array (row.map jsonOfSingle))).list?
      (Json.list? Json.single?) = rereadRows? r.rows := by
    rw [Json.list?_array]
    exact congrArg r.rows.mapM (funext fun row => Json.list?_array jsonOfSingle _ row)
  unfold ofLine? line
  rw [Json.ofText?_write (spelled_toJson r)]
  show (r.toJson.fields? fieldNames).bind ofFieldValues? = _
  rw [hfields]
  simp only [Option.bind_some, fieldValues, ofFieldValues?, Json.pair?,
    Json.list?_sizes h.sources_lt, Json.list?_sizes h.targets_lt, Json.size?_ofNat,
    if_pos h.index_lt, if_pos h.number_lt, Json.text?_ofString,
    Json.list?_array_of_eq Json.text?_ofString, hlabel, hrows, Option.bind_eq_bind,
    Option.pure_def]
  cases rereadRows? r.rows <;> rfl

/-- A record whose feature values are read as they are is read as it is. -/
theorem ofLine?_line_eq_self (h : r.Fits) (hrows : ∀ row ∈ r.rows, ∀ x ∈ row, reread? x = some x) :
    ofLine? r.line = some r := by
  have hrow : ∀ row ∈ r.rows, row.mapM reread? = some row := fun row hr => by
    rw [Json.mapM_eq_some id fun x hx => hrows row hr x hx, List.map_id]
  have hall : rereadRows? r.rows = some r.rows :=
    (Json.mapM_eq_some id hrow).trans (by rw [List.map_id])
  rw [ofLine?_line h, hall]
  rfl

theorem exists_ofLine?_line (h : r.Fits) (hfinite : r.HasFiniteRows) :
    ∃ r', ofLine? r.line = some r' := by
  obtain ⟨rows, hrows, -⟩ : ∃ rows, rereadRows? r.rows = some rows ∧ rows.length = r.rows.length :=
    Json.exists_mapM fun row hr =>
      (Json.exists_mapM fun x hx => exists_reread? (hfinite row hr x hx)).imp fun _ h => h.1
  rw [ofLine?_line h, hrows]
  exact ⟨_, rfl⟩

/-- A record with a value that is not finite is not read. -/
theorem ofLine?_line_eq_none (h : r.Fits) (hfinite : ¬ r.HasFiniteRows) :
    ofLine? r.line = none := by
  unfold HasFiniteRows at hfinite
  simp only [Classical.not_forall] at hfinite
  obtain ⟨row, hr, x, hx, hnot⟩ := hfinite
  have hrow : row.mapM reread? = none :=
    Json.mapM_eq_none hx (reread?_eq_none (Bool.eq_false_iff.2 hnot))
  have hall : rereadRows? r.rows = none := Json.mapM_eq_none hr hrow
  rw [ofLine?_line h, hall]
  rfl

end Line

/-! ## Files of records -/

section Files

variable {rs : List Record} {ms : List String} {samples : List Sample} {d d' : Disk}
  {path : String} {n : Nat}

theorem text_eq_unlines (rs : List Record) : text rs = Text.unlines (rs.map line) := by
  unfold text Text.unlines
  rw [List.map_map]
  rfl

theorem newline_notMem_lines (rs : List Record) : ∀ l ∈ rs.map line, '\n' ∉ l.toList := by
  intro l hl
  obtain ⟨r, -, rfl⟩ := List.mem_map.1 hl
  exact r.newline_notMem_line

theorem withoutReturn_lines (rs : List Record) :
    ∀ l ∈ rs.map line, Text.withoutReturn l = l := by
  intro l hl
  obtain ⟨r, -, rfl⟩ := List.mem_map.1 hl
  exact r.withoutReturn_line

/-- The lines of a file of records are those of its records. -/
theorem lines_text (rs : List Record) : Text.lines (text rs) = rs.map line := by
  rw [text_eq_unlines]
  exact Text.lines_unlines_eq_self (newline_notMem_lines rs) (withoutReturn_lines rs)

theorem text_append (rs rs' : List Record) : text (rs ++ rs') = text rs ++ text rs' := by
  rw [text_eq_unlines, text_eq_unlines, text_eq_unlines, List.map_append, Text.unlines_append]

/-- What the lines of some records are read as. -/
def reread (rs : List Record) : Except Error (List Record) :=
  match rs.mapM fun r => ofLine? r.line with
  | some rs' => .ok rs'
  | none => .error .json

theorem reread_cons (r : Record) (rs : List Record) :
    reread (r :: rs) =
      (ofLine? r.line).elim (.error .json) fun r' => (reread rs).map (r' :: ·) := by
  unfold reread
  rw [List.mapM_cons]
  cases ofLine? r.line with
  | none => rfl
  | some r' => cases rs.mapM fun r => ofLine? r.line <;> rfl

theorem reread_eq_self (h : ∀ r ∈ rs, ofLine? r.line = some r) : reread rs = .ok rs := by
  unfold reread
  rw [Json.mapM_eq_some id h, List.map_id]

theorem exists_reread_eq_ok (h : ∀ r ∈ rs, ∃ r', ofLine? r.line = some r') :
    ∃ rs', reread rs = .ok rs' ∧ rs'.length = rs.length := by
  obtain ⟨rs', hrs', hlen⟩ := Json.exists_mapM h
  refine ⟨rs', ?_, hlen⟩
  unfold reread
  rw [hrs']

theorem reread_eq_error {r : Record} (hr : r ∈ rs) (h : ofLine? r.line = none) :
    reread rs = .error .json := by
  have hnone : rs.mapM (fun r => ofLine? r.line) = none := Json.mapM_eq_none hr h
  unfold reread
  rw [hnone]

/-- Reading passes over blank lines. -/
theorem readLines_of_spaced (h : Text.Spaced (rs.map line) ms) :
    readLines path (ms.map some) = reread rs := by
  generalize hls : rs.map line = ls at h
  induction h generalizing rs with
  | nil =>
    obtain rfl := List.map_eq_nil_iff.1 hls
    rfl
  | keep l _ ih =>
    obtain ⟨r, rs, rfl, rfl, hrest⟩ := List.map_eq_cons_iff.1 hls
    rw [List.map_cons, readLines, r.isEmpty_trim_line, if_neg Bool.false_ne_true, ih hrest,
      reread_cons]
    cases ofLine? r.line <;> rfl
  | blank hblank _ _ ih =>
    rw [List.map_cons, readLines, if_pos hblank, ih hls]

/-- A file of record lines with blank lines between them. -/
theorem load_of_spaced (h : Text.Spaced (rs.map line) ms)
    (hread : d.readContent path = .ok (.text (Text.unlines ms))) : load d path = reread rs := by
  have hlines : Text.lines (Text.unlines ms) = ms.map Text.withoutReturn :=
    Text.lines_unlines (h.newline_notMem (newline_notMem_lines rs))
  unfold load
  rw [hread]
  show readLines path ((Text.lines (Text.unlines ms)).map some) = reread rs
  rw [hlines]
  exact readLines_of_spaced (h.map_withoutReturn (withoutReturn_lines rs))

/-- What is written to a file is the text of the records. -/
theorem of_save (hd : d.Sound) (h : save d path samples = .ok (d', n)) :
    n = samples.length ∧ d'.readContent path = .ok (.text (text (samples.map ofSample))) := by
  unfold save Disk.writeText at h
  split at h
  · exact absurd h (by simp)
  · rename_i e hwrite
    obtain ⟨rfl, rfl⟩ := Prod.mk.inj (Except.ok.inj h)
    exact ⟨rfl, hd.readContent_of_writeContent hwrite⟩

/-- The text of a file that the samples were written to. -/
def SavedAs (samples : List Sample) (t : String) : Prop :=
  ∃ (d d' : Disk) (path : String) (n : Nat), d.Sound ∧ save d path samples = .ok (d', n) ∧
    d'.readContent path = .ok (.text t)

theorem SavedAs.eq_text {t : String} (h : SavedAs samples t) : t = text (samples.map ofSample) := by
  obtain ⟨d, d', path, n, hd, hsave, hread⟩ := h
  exact Content.text.inj (Except.ok.inj (hread.symm.trans (of_save hd hsave).2))

theorem load_of_save (hd : d.Sound) (h : save d path samples = .ok (d', n)) :
    load d' path = reread (samples.map ofSample) := by
  have hread := (of_save hd h).2
  rw [text_eq_unlines] at hread
  exact load_of_spaced (Text.Spaced.refl _) hread

/-- Samples can be written where any text can be. -/
theorem exists_save (hd : d.Sound) (hpath : ∃ e, d.writeText path "" = .ok e)
    (samples : List Sample) : ∃ d', save d path samples = .ok (d', samples.length) := by
  obtain ⟨d', hd'⟩ := hd.exists_writeContent hpath (.text (text (samples.map ofSample)))
  refine ⟨d', ?_⟩
  unfold save Disk.writeText
  rw [hd']

end Files

/-! ## A file of one record -/

theorem items_soloDisk (table : String) : (soloDisk table).items =
    [(["work", "r", "a", "a-1.features"], .file (.text table)),
      (["work", "r", "a", "a-1.edges"], .file (.text "p c")),
      (["work", "r", "a"], .directory), (["work", "r"], .directory)] := rfl

theorem sound_soloDisk (table : String) : (soloDisk table).Sound := by
  refine ⟨?_, rfl⟩
  rw [items_soloDisk]
  simp only [List.forall_mem_cons]
  exact ⟨rfl, rfl, rfl, rfl, fun _ h => absurd h List.not_mem_nil⟩

theorem soloRows_half : SoloRows "p: 1\nc: 0.5" ⟨0x3F800000⟩ ⟨0x3F000000⟩ := by
  unfold SoloRows
  decide +kernel

theorem hasFiniteRows_half {r : Record} (h : r.rows = [[⟨0x3F800000⟩], [⟨0x3F000000⟩]]) :
    r.HasFiniteRows := by
  unfold HasFiniteRows
  rw [h]
  decide +kernel

/-- The sample of a table of two rows can be written. -/
theorem exists_soloRecord {v w : Single} {text : String} (h : SoloRows text v w) :
    ∃ s d', soloDataset.buildSample (soloDisk text) 0 = .ok s ∧ (ofSample s).rows = [[v], [w]] ∧
      s.graph.nodes.size ≤ sizeLimit ∧ save (soloDisk text) "out.jsonl" [s] = .ok (d', 1) := by
  obtain ⟨s, hs, hrows⟩ := exists_soloSample h
  obtain ⟨d', hsave⟩ := exists_save (sound_soloDisk text)
    (show ∃ e, (soloDisk text).writeText "out.jsonl" "" = .ok e from ⟨_, rfl⟩) [s]
  have hsize : s.graph.nodes.size = 2 := by
    rw [← Array.length_toList, ← List.length_map, hrows]
    rfl
  exact ⟨s, d', hs, hrows, by rw [hsize]; decide, hsave⟩

/-! ## Records of samples -/

section Samples

variable {a : Dataset} {s : Sample} {samples xs ys : List Sample} {d d' : Disk} {path : String}
  {n : Nat}

/-- The numbers of a built sample are sizes if the positions of its nodes are. -/
theorem fits_ofSample {i : Nat} (ha : a.index.Formed) (hs : a.buildSample d i = .ok s)
    (hsize : s.graph.nodes.size ≤ sizeLimit) : (ofSample s).Fits := by
  obtain ⟨rfl, hresolve, hgraph, -, -⟩ := Dataset.buildSample_eq_ok_iff.1 hs
  obtain ⟨-, hindex, hnumber⟩ := ha.of_resolve hresolve
  have hlinked := Dataset.linked_of_buildGraph hgraph
  refine ⟨hindex, hnumber, fun u hu => ?_, fun v hv => ?_⟩
  · obtain ⟨e, he, rfl⟩ := List.mem_map.1 hu
    exact Nat.lt_of_lt_of_le (hlinked.inRange he).1 hsize
  · obtain ⟨e, he, rfl⟩ := List.mem_map.1 hv
    exact Nat.lt_of_lt_of_le (hlinked.inRange he).2 hsize

/-- Samples of a dataset that were written are read back, as many as there were, if all their
feature values are finite. If one is not, the file is no file of records. -/
theorem load_saved_samples (ha : a.index.Formed)
    (hbuilt : ∀ s ∈ samples, ∃ d₀ i, a.buildSample d₀ i = .ok s)
    (hsize : ∀ s ∈ samples, s.graph.nodes.size ≤ sizeLimit) (hd : d.Sound)
    (hsave : save d path samples = .ok (d', n)) :
    n = samples.length ∧
      ((∀ s ∈ samples, (ofSample s).HasFiniteRows) →
        ∃ rs, load d' path = .ok rs ∧ rs.length = n) ∧
      ((∃ s ∈ samples, ¬ (ofSample s).HasFiniteRows) → load d' path = .error .json) := by
  obtain ⟨rfl, -⟩ := of_save hd hsave
  have hfits : ∀ s ∈ samples, (ofSample s).Fits := fun s hs => by
    obtain ⟨d₀, i, hi⟩ := hbuilt s hs
    exact fits_ofSample ha hi (hsize s hs)
  rw [load_of_save hd hsave]
  refine ⟨rfl, fun hfinite => ?_, fun ⟨s, hs, hnot⟩ => ?_⟩
  · have hread : ∀ r ∈ samples.map ofSample, ∃ r', ofLine? r.line = some r' := by
      intro r hr
      obtain ⟨s, hs, rfl⟩ := List.mem_map.1 hr
      exact exists_ofLine?_line (hfits s hs) (hfinite s hs)
    obtain ⟨rs, hrs, hlen⟩ := exists_reread_eq_ok hread
    exact ⟨rs, hrs, by rw [hlen, List.length_map]⟩
  · exact reread_eq_error (List.mem_map_of_mem hs) (ofLine?_line_eq_none (hfits s hs) hnot)

theorem load_saved_samples_solo : ∃ s d' rs,
    soloDataset.buildSample (soloDisk "p: 1\nc: 0.5") 0 = .ok s ∧
      save (soloDisk "p: 1\nc: 0.5") "out.jsonl" [s] = .ok (d', 1) ∧
      load d' "out.jsonl" = .ok rs ∧ rs.length = 1 := by
  obtain ⟨s, d', hs, hrows, hsize, hsave⟩ := exists_soloRecord soloRows_half
  have hread := load_saved_samples formed_soloDataset
    (List.forall_mem_singleton.2 ⟨_, 0, hs⟩) (List.forall_mem_singleton.2 hsize)
    (sound_soloDisk _) hsave
  obtain ⟨rs, hrs, hlen⟩ := hread.2.1 (List.forall_mem_singleton.2 (hasFiniteRows_half hrows))
  exact ⟨s, d', rs, hs, hsave, hrs, hlen⟩

/-- The reader of tables takes an infinite value, and so a sample can be built and written that is
not read back. -/
theorem load_saved_infinite : ∃ s d',
    Dataset.load (soloDisk "p: inf\nc: 1") soloSettings = .ok soloDataset ∧
      soloDataset.buildSample (soloDisk "p: inf\nc: 1") 0 = .ok s ∧
      save (soloDisk "p: inf\nc: 1") "out.jsonl" [s] = .ok (d', 1) ∧
      load d' "out.jsonl" = .error .json := by
  have htable : SoloRows "p: inf\nc: 1" ⟨0x7F800000⟩ ⟨0x3F800000⟩ := by
    unfold SoloRows
    decide +kernel
  obtain ⟨s, d', hs, hrows, hsize, hsave⟩ := exists_soloRecord htable
  have hinfinite : ¬ (ofSample s).HasFiniteRows := by
    unfold HasFiniteRows
    rw [hrows]
    decide +kernel
  have hnone := ofLine?_line_eq_none (fits_ofSample formed_soloDataset hs hsize) hinfinite
  refine ⟨s, d', load_soloDataset (by decide +kernel), hs, hsave, ?_⟩
  rw [load_of_save (sound_soloDisk _) hsave]
  exact reread_eq_error List.mem_cons_self hnone

/-- Finite samples are read back from the file they are written to, and the records of two such
files, joined with blank lines between the lines or none, are those of the first and then those of
the second. Taken for granted is only that the reader finds each record in its line: a feature value
is rounded to 64 bits on its way back to 32. -/
theorem load_joined_files (hfinite : ∀ s ∈ xs ++ ys, (ofSample s).HasFiniteRows)
    (hcodec : ∀ s ∈ xs ++ ys, (ofSample s).HasFiniteRows →
      ofLine? (ofSample s).line = some (ofSample s)) :
    (∀ {d : Disk} {path : String}, d.Sound → (∃ e, d.writeText path "" = .ok e) →
      ∃ d', save d path xs = .ok (d', xs.length) ∧ load d' path = .ok (xs.map ofSample)) ∧
    ∀ {t₁ t₂ : String} {ms : List String} {d : Disk} {path : String},
      SavedAs xs t₁ → SavedAs ys t₂ → Text.Spaced (Text.lines (t₁ ++ t₂)) ms →
      d.readContent path = .ok (.text (Text.unlines ms)) →
      load d path = .ok (xs.map ofSample ++ ys.map ofSample) := by
  have hself : ∀ r ∈ (xs ++ ys).map ofSample, ofLine? r.line = some r := by
    intro r hr
    obtain ⟨s, hs, rfl⟩ := List.mem_map.1 hr
    exact hcodec s hs (hfinite s hs)
  rw [List.map_append] at hself
  refine ⟨fun {d path} hd hpath => ?_, ?_⟩
  · obtain ⟨d', hd'⟩ := exists_save hd hpath xs
    refine ⟨d', hd', ?_⟩
    rw [load_of_save hd hd', reread_eq_self fun r hr => hself r (List.mem_append_left _ hr)]
  · intro t₁ t₂ ms d path hxs hys hms hread
    obtain rfl := hxs.eq_text
    obtain rfl := hys.eq_text
    rw [← text_append, lines_text] at hms
    rw [load_of_spaced hms hread, reread_eq_self hself]

theorem load_joined_files_solo : ∃ s d' e,
    soloDataset.buildSample (soloDisk "p: 1\nc: 0.5") 0 = .ok s ∧
      save (soloDisk "p: 1\nc: 0.5") "out.jsonl" [s] = .ok (d', [s].length) ∧
      load d' "out.jsonl" = .ok [ofSample s] ∧
      (soloDisk "p: 1\nc: 0.5").writeText "both.jsonl"
        (Text.unlines ["\r", (ofSample s).line, " ", (ofSample s).line]) = .ok e ∧
      load e "both.jsonl" = .ok [ofSample s, ofSample s] := by
  obtain ⟨s, -, hs, hrows, hsize, -⟩ := exists_soloRecord soloRows_half
  have hsound := sound_soloDisk "p: 1\nc: 0.5"
  have hfits := fits_ofSample formed_soloDataset hs hsize
  have hrereads : ∀ row ∈ (ofSample s).rows, ∀ x ∈ row, reread? x = some x := by
    rw [hrows]
    decide +kernel
  have hfinite : ∀ t ∈ [s] ++ [s], (ofSample t).HasFiniteRows := by
    simpa using hasFiniteRows_half hrows
  have hcodec : ∀ t ∈ [s] ++ [s], (ofSample t).HasFiniteRows →
      ofLine? (ofSample t).line = some (ofSample t) := by
    simpa using fun _ => ofLine?_line_eq_self hfits hrereads
  obtain ⟨hsaved, hjoined⟩ := load_joined_files hfinite hcodec
  have hout : ∃ e, (soloDisk "p: 1\nc: 0.5").writeText "out.jsonl" "" = .ok e := ⟨_, rfl⟩
  have hboth : ∃ e, (soloDisk "p: 1\nc: 0.5").writeText "both.jsonl" "" = .ok e := ⟨_, rfl⟩
  obtain ⟨d', hsave, hload⟩ := hsaved hsound hout
  obtain ⟨e, hwrite⟩ := hsound.exists_writeContent hboth
    (.text (Text.unlines ["\r", (ofSample s).line, " ", (ofSample s).line]))
  have hsavedAs : SavedAs [s] (text [ofSample s]) :=
    ⟨_, d', _, _, hsound, hsave, (of_save hsound hsave).2⟩
  have hspaced : Text.Spaced (Text.lines (text [ofSample s] ++ text [ofSample s]))
      ["\r", (ofSample s).line, " ", (ofSample s).line] := by
    rw [← text_append, lines_text]
    exact .blank (by decide) (by decide)
      (.keep _ (.blank (by decide) (by decide) (.keep _ .nil)))
  exact ⟨s, d', e, hs, hsave, hload, hwrite,
    hjoined hsavedAs hsavedAs hspaced (hsound.readContent_of_writeContent hwrite)⟩

end Samples

end TreeCorpus.Record
