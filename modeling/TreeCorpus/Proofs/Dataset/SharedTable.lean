import TreeCorpus.Proofs.Dataset.Sample
import TreeCorpus.Proofs.Graph.FeatureTable

/-!
# Tables beside solutions and a shared table

A text gives the same rows wherever it stands (`FeatureTable.exists_parse`), and a table matters by
its rows only: with the same rows every stage of building a sample has the same value, or fails for
the same kind of reason (`Graph.annotate_alike`, `Graph.buildFile_alike`). So it makes no difference
to the samples whether one table is shared or each solution has a copy of it beside its edge list
(`shared_table_agrees`). The two ways differ in one failure only: before a table beside the edge list
is read, the edge list must be a regular file.
-/

namespace TreeCorpus

/-! ## Outcomes side by side -/

/-- Both outcomes are one value, or both are failures, and those are related. -/
inductive Alike {α : Type} (R : Error → Error → Prop) : Except Error α → Except Error α → Prop where
  | ok (a : α) : Alike R (.ok a) (.ok a)
  | error {e e' : Error} : R e e' → Alike R (.error e) (.error e')

namespace Alike

variable {α : Type} {R R' : Error → Error → Prop} {x y : Except Error α}

theorem refl (hR : ∀ e, R e e) : ∀ x : Except Error α, Alike R x x
  | .ok a => .ok a
  | .error e => .error (hR e)

theorem mono (h : Alike R x y) (hR : ∀ e e', R e e' → R' e e') : Alike R' x y := by
  cases h with
  | ok a => exact .ok a
  | error he => exact .error (hR _ _ he)

theorem ok_iff (h : Alike R x y) (a : α) : x = .ok a ↔ y = .ok a := by
  cases h with
  | ok b => exact Iff.rfl
  | error he => exact iff_of_false (fun h => nomatch h) (fun h => nomatch h)

end Alike

/-- The errors are tallied under one label. -/
def Error.SameKind (e e' : Error) : Prop := e.kind = e'.kind

/-! ## One text from two places -/

namespace FeatureTable

variable {t t' : FeatureTable} {text origin : String} {dimension : Nat}

/-- The tables have the same rows and may come from different places. -/
structure SameRows (t t' : FeatureTable) : Prop where
  dimension_eq : t'.dimension = t.dimension
  rows_eq : t'.rows = t.rows

theorem SameRows.symm (h : SameRows t t') : SameRows t' t :=
  ⟨h.dimension_eq.symm, h.rows_eq.symm⟩

theorem SameRows.lookup_eq (h : SameRows t t') (node : String) :
    t'.lookup node = t.lookup node := by
  unfold lookup
  rw [h.rows_eq]

theorem SameRows.insert (h : SameRows t t') {node : String} {values : List Number.Single}
    {t₁ : FeatureTable} (hi : t.insert node values = .ok t₁) :
    ∃ t₁', t'.insert node values = .ok t₁' ∧ SameRows t₁ t₁' := by
  obtain ⟨hlength, rfl⟩ := insert_eq_ok_iff.1 hi
  refine ⟨_, insert_eq_ok_iff.2 ⟨by rw [hlength, h.dimension_eq], rfl⟩, h.dimension_eq, ?_⟩
  show t'.rows.insert node values = t.rows.insert node values
  rw [h.rows_eq]

theorem SameRows.readLine (h : SameRows t t') {n : Nat} {line : String} {t₁ : FeatureTable}
    (hl : t.readLine n line = .ok t₁) :
    ∃ t₁', t'.readLine n line = .ok t₁' ∧ SameRows t₁ t₁' := by
  unfold FeatureTable.readLine at hl ⊢
  dsimp only at hl ⊢
  split at hl
  · rename_i hblank
    obtain rfl := Except.ok.inj hl
    exact ⟨t', if_pos hblank, h⟩
  · rename_i hblank
    rw [if_neg hblank]
    split at hl
    · rename_i node values hrow
      exact h.insert hl
    · exact nomatch hl

theorem SameRows.readLines (h : SameRows t t') {n : Nat} {lines : List String} {t₁ : FeatureTable}
    (hl : t.readLines n lines = .ok t₁) :
    ∃ t₁', t'.readLines n lines = .ok t₁' ∧ SameRows t₁ t₁' := by
  induction lines generalizing t t' n with
  | nil =>
    obtain rfl := Except.ok.inj hl
    exact ⟨t', rfl, h⟩
  | cons line lines ih =>
    obtain ⟨t₂, hline, hrest⟩ := readLines_cons_eq_ok_iff.1 hl
    obtain ⟨t₂', hline', h₂⟩ := h.readLine hline
    obtain ⟨t₁', hrest', h₁⟩ := ih h₂ hrest
    exact ⟨t₁', readLines_cons_eq_ok_iff.2 ⟨t₂', hline', hrest'⟩, h₁⟩

/-- What is read from one place is read from any other, with the same rows. -/
theorem exists_parse (h : parse text dimension origin = .ok t) (origin' : String) :
    ∃ t', parse text dimension origin' = .ok t' ∧ SameRows t t' := by
  have hempty : SameRows (empty dimension origin) (empty dimension origin') := ⟨rfl, rfl⟩
  obtain ⟨t', ht', hsame⟩ := hempty.readLines (mapError_eq_ok_iff.1 h)
  exact ⟨t', mapError_eq_ok_iff.2 ht', hsame⟩

/-- A file with the text holds a table with the same rows. -/
theorem exists_load {d : Disk} {path : String} (h : parse text dimension origin = .ok t)
    (hread : d.read path = .ok text) :
    ∃ t', load d path dimension = .ok t' ∧ SameRows t t' := by
  unfold load
  rw [hread]
  exact exists_parse h path

end FeatureTable

/-! ## One graph from two tables -/

namespace Graph

variable {g : Graph} {t t' : FeatureTable} {d : Disk} {dimension : Nat} {origin path text : String}

/-- A row that is missing in one table is missing for the same reason in the other. -/
theorem RowMissing.exists_sameKind (hrows : t.SameRows t') {id : String} {e : Error}
    (h : RowMissing t dimension origin id e) :
    ∃ e', RowMissing t' dimension origin id e' ∧ Error.SameKind e e' := by
  cases h with
  | none hid => exact ⟨_, .none ((hrows.lookup_eq id).trans hid), rfl⟩
  | length hid hlength => exact ⟨_, .length ((hrows.lookup_eq id).trans hid) hlength, rfl⟩

theorem annotateFrom_alike (hrows : t.SameRows t') (i : Nat) (g : Graph) (names : List String) :
    Alike Error.SameKind (annotateFrom t dimension origin i g names)
      (annotateFrom t' dimension origin i g names) := by
  induction names generalizing g i with
  | nil => exact .ok g
  | cons id names ih =>
    rcases exists_row_or_rowMissing t dimension origin id with ⟨v, hv, hl⟩ | ⟨e, he⟩
    · rw [annotateFrom_cons_of_lookup hv hl,
        annotateFrom_cons_of_lookup ((hrows.lookup_eq id).trans hv) hl]
      exact ih (i + 1) (g.setFeatures i v)
    · obtain ⟨e', he', hkind⟩ := he.exists_sameKind hrows
      rw [annotateFrom_cons_of_rowMissing he, annotateFrom_cons_of_rowMissing he']
      exact .error hkind

theorem annotate_alike (hrows : t.SameRows t') :
    Alike Error.SameKind (g.annotate t dimension origin) (g.annotate t' dimension origin) :=
  annotateFrom_alike hrows 0 g _

theorem buildFile_alike (hrows : t.SameRows t') :
    Alike Error.SameKind (buildFile d path t dimension) (buildFile d path t' dimension) := by
  unfold buildFile
  cases d.read path with
  | error e => exact .error rfl
  | ok text =>
    show Alike _ (build text path t dimension) (build text path t' dimension)
    unfold build
    cases Graph.parse text path with
    | error e => exact .error rfl
    | ok g => exact annotate_alike hrows

/-- What is no regular file cannot be read. -/
theorem exists_read_error (h : d.isFile path = false) : ∃ e, d.read path = .error e := by
  cases hread : d.read path with
  | error e => exact ⟨e, rfl⟩
  | ok text => exact absurd (isFile_of_read hread) (by simp [h])

end Graph

/-! ## One sample from two datasets -/

namespace Dataset

variable {a b : Dataset} {d : Disk} {i : Nat} {sol : Solution} {R : Error → Error → Prop}

/-- With the same index, samples are as alike as their graphs. -/
theorem buildSolution_alike (hindex : b.index = a.index) (hR : ∀ e, R e e)
    (h : Alike R (a.buildGraph d sol) (b.buildGraph d sol)) :
    Alike R (a.buildSolution d i sol) (b.buildSolution d i sol) := by
  unfold buildSolution
  rw [hindex]
  generalize a.buildGraph d sol = x at h ⊢
  generalize b.buildGraph d sol = y at h ⊢
  cases h with
  | ok g => exact .refl hR _
  | error he => exact .error he

/-- How a failure with a table beside the solution and one with a shared table belong together: both
are of one kind, or the edge list is no regular file. In that case the first says that the file is
not found, and the second what reading it says. -/
inductive SameFailure (a : Dataset) (d : Disk) (i : Nat) (e e' : Error) : Prop where
  | sameKind : e.SameKind e' → SameFailure a d i e e'
  | notAFile {sol : Solution} : a.index.resolve i = .ok sol → d.isFile sol.path = false →
      e = .fileNotFound sol.path → d.read sol.path = .error e' → SameFailure a d i e e'

/-- The graph of an edge list with a table beside it, and that with a table of the same rows. -/
theorem buildWithSidecar_alike {t t' : FeatureTable} {ext : String} {dimension : Nat}
    (hresolve : a.index.resolve i = .ok sol) (hrows : t.SameRows t')
    (hload : FeatureTable.load d (Path.withExtension sol.path ext) dimension = .ok t') :
    Alike (SameFailure a d i) (Graph.buildWithSidecar d sol.path ext dimension)
      (Graph.buildFile d sol.path t dimension) := by
  unfold Graph.buildWithSidecar
  cases hfile : d.isFile sol.path with
  | true =>
    rw [if_pos rfl, hload]
    exact (Graph.buildFile_alike hrows.symm).mono fun e e' he => .sameKind he
  | false =>
    obtain ⟨e, he⟩ := Graph.exists_read_error hfile
    rw [if_neg Bool.false_ne_true]
    unfold Graph.buildFile
    rw [he]
    exact .error (.notAFile hresolve hfile rfl he)

/-- Where the file beside the solution of an index holds the text of a table, building the sample
with that file and building it with the table as the shared one either give one sample or both
fail. -/
theorem shared_table_agrees {t : FeatureTable} {text origin : String}
    (ht : FeatureTable.parse text a.dimension origin = .ok t)
    (hbeside : ∀ sol, a.index.resolve i = .ok sol →
      d.read (Path.withExtension sol.path a.sidecarExtension) = .ok text) :
    Alike (SameFailure a d i) ({ a with shared := none }.buildSample d i)
      ({ a with shared := some t }.buildSample d i) := by
  unfold buildSample
  dsimp only
  cases hresolve : a.index.resolve i with
  | error e => exact .error (.sameKind rfl)
  | ok sol =>
    obtain ⟨t', hload, hrows⟩ := FeatureTable.exists_load ht (hbeside sol hresolve)
    have hgraph := buildWithSidecar_alike hresolve hrows hload
    exact buildSolution_alike (a := { a with shared := none }) (b := { a with shared := some t })
      rfl (fun e => .sameKind rfl) hgraph

/-- A solution with a row for each node: both ways give its sample. -/
theorem shared_table_agrees_solo : ∃ t s,
    FeatureTable.parse "p: 1\nc: 2" 1 "shared" = .ok t ∧
      (soloDisk "p: 1\nc: 2").read "r/a/a-1.features" = .ok "p: 1\nc: 2" ∧
      soloDataset.buildSample (soloDisk "p: 1\nc: 2") 0 = .ok s ∧
      { soloDataset with shared := some t }.buildSample (soloDisk "p: 1\nc: 2") 0 = .ok s := by
  have hrows : SoloRows "p: 1\nc: 2" ⟨0x3F800000⟩ ⟨0x40000000⟩ := by
    unfold SoloRows
    decide +kernel
  have htable : FeatureTable.parse "p: 1\nc: 2" 1 "r/a/a-1.features" = .ok _ :=
    isTableFor_soloTable hrows
  obtain ⟨t, ht, -⟩ := FeatureTable.exists_parse htable "shared"
  obtain ⟨s, hs, -⟩ := exists_soloSample hrows
  have hread : (soloDisk "p: 1\nc: 2").read "r/a/a-1.features" = .ok "p: 1\nc: 2" := rfl
  have hbeside : ∀ sol, soloDataset.index.resolve 0 = .ok sol →
      (soloDisk "p: 1\nc: 2").read
        (Path.withExtension sol.path soloDataset.sidecarExtension) = .ok "p: 1\nc: 2" := by
    intro sol hsol
    obtain rfl := Except.ok.inj (resolve_soloDataset.symm.trans hsol)
    exact hread
  have hagree := shared_table_agrees ht hbeside
  exact ⟨t, s, ht, hread, hs, (hagree.ok_iff s).1 hs⟩

end Dataset

end TreeCorpus
