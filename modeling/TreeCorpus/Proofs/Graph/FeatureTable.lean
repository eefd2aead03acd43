import TreeCorpus.Error
import TreeCorpus.Proofs.Outcome

/-!
# Feature tables as they are built

A table comes from an empty one by insertions, whether a program makes it or it is read from a text
(`built_of_parse`, `built_of_load`). Every insertion checks the length of its row, so all rows of a
table have its dimension (`Built.length_of_lookup`).
-/

namespace TreeCorpus.FeatureTable

open Number

variable {t t' : FeatureTable} {name : String} {values : List Single}

/-- The tables that insertions make from an empty one. -/
inductive Built : FeatureTable → Prop where
  | empty (dimension : Nat) (origin : String) : Built (.empty dimension origin)
  | insert {t t' : FeatureTable} {name : String} {values : List Single} :
      Built t → t.insert name values = .ok t' → Built t'

theorem insert_eq_ok_iff :
    t.insert name values = .ok t' ↔
      values.length = t.dimension ∧ { t with rows := t.rows.insert name values } = t' := by
  unfold insert
  by_cases h : values.length = t.dimension <;> simp [h]

theorem exists_insert (name : String) (h : values.length = t.dimension) :
    ∃ t', t.insert name values = .ok t' := ⟨_, insert_eq_ok_iff.2 ⟨h, rfl⟩⟩

/-- An insertion changes the row of its own name only. -/
theorem lookup_of_insert (h : t.insert name values = .ok t') (key : String) :
    t'.lookup key = if name = key then some values else t.lookup key := by
  obtain ⟨-, rfl⟩ := insert_eq_ok_iff.1 h
  unfold lookup
  rw [Std.HashMap.getElem?_insert]
  by_cases he : name = key <;> simp [he]

theorem size_of_insert (h : t.insert name values = .ok t') :
    t'.size = if (t.lookup name).isSome then t.size else t.size + 1 := by
  obtain ⟨-, rfl⟩ := insert_eq_ok_iff.1 h
  unfold size lookup
  simp only [Std.HashMap.size_insert, Std.HashMap.mem_iff_isSome_getElem?]

theorem Built.length_of_lookup (h : t.Built) (hv : t.lookup name = some values) :
    values.length = t.dimension := by
  induction h with
  | empty dimension origin => exact absurd hv (by simp [lookup, FeatureTable.empty])
  | @insert t t' node row _ hi ih =>
    obtain ⟨hlength, hsame⟩ := insert_eq_ok_iff.1 hi
    rw [lookup_of_insert hi] at hv
    subst hsame
    split at hv
    · rwa [← Option.some.inj hv]
    · exact ih hv

/-- A line inserts a row or changes nothing. -/
theorem Built.readLine {line : String} {n : Nat} (h : t.Built)
    (hline : t.readLine n line = .ok t') : t'.Built ∧ t'.dimension = t.dimension := by
  unfold FeatureTable.readLine at hline
  dsimp only at hline
  split at hline
  · obtain rfl := Except.ok.inj hline
    exact ⟨h, rfl⟩
  · split at hline
    · refine ⟨h.insert hline, ?_⟩
      obtain ⟨-, rfl⟩ := insert_eq_ok_iff.1 hline
      rfl
    · exact nomatch hline

/-- Lines are read one after the other. -/
theorem readLines_cons_eq_ok_iff {line : String} {lines : List String} {n : Nat} :
    t.readLines n (line :: lines) = .ok t' ↔
      ∃ t₁, t.readLine n line = .ok t₁ ∧ t₁.readLines (n + 1) lines = .ok t' := by
  rw [readLines]
  cases hline : t.readLine n line with
  | error fault => simp
  | ok t₁ => simp

theorem Built.readLines {lines : List String} {n : Nat} (h : t.Built)
    (hlines : t.readLines n lines = .ok t') : t'.Built ∧ t'.dimension = t.dimension := by
  induction lines generalizing t n with
  | nil =>
    obtain rfl := Except.ok.inj hlines
    exact ⟨h, rfl⟩
  | cons line lines ih =>
    obtain ⟨t₁, hline, hrest⟩ := readLines_cons_eq_ok_iff.1 hlines
    obtain ⟨hbuilt, hdim⟩ := h.readLine hline
    obtain ⟨hbuilt', hdim'⟩ := ih hbuilt hrest
    exact ⟨hbuilt', hdim'.trans hdim⟩

/-- A table that is read from a text is built and has the dimension asked for. -/
theorem built_of_parse {text origin : String} {dimension : Nat}
    (h : parse text dimension origin = .ok t) : t.Built ∧ t.dimension = dimension :=
  (Built.empty dimension origin).readLines (mapError_eq_ok_iff.1 h)

theorem built_of_load {d : Disk} {path : String} {dimension : Nat}
    (h : load d path dimension = .ok t) : t.Built ∧ t.dimension = dimension := by
  unfold load at h
  cases hread : d.read path with
  | error e =>
    rw [hread] at h
    exact nomatch h
  | ok text =>
    rw [hread] at h
    exact built_of_parse h

end TreeCorpus.FeatureTable
