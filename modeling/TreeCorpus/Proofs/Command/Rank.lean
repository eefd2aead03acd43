import TreeCorpus.Command.Run
import TreeCorpus.Disk.Edit
import TreeCorpus.Proofs.Ranking.Ranked

/-!
# Ranking a score list

The scores of a list are those of its filled fields (`readScores_eq_ok_iff`): blank fields are
passed over wherever they stand, and nothing compares the number of scores with that of the
categories. So a category is ranked by the filled field that as many filled ones stand before as its
ordinal says (`FilledAt`). That is the field at the category's own place exactly if no blank field
stands before it (`FilledAt.place_eq_iff`). When the command succeeds, and what it prints, is
`rank_exact`.
-/

namespace TreeCorpus

open Number Ranking Console

/-! ## Filled fields -/

/-- The field `w` at the place `place` is filled, and `i` filled fields stand before it. -/
structure FilledAt (fields : List String) (i place : Nat) (w : String) : Prop where
  getElem?_eq : fields[place]? = some w
  isEmpty_eq : w.isEmpty = false
  length_before : ((fields.take place).filter (!·.isEmpty)).length = i

namespace FilledAt

variable {fields : List String} {i place place' : Nat} {w w' : String}

theorem length_take (h : FilledAt fields i place w) : (fields.take place).length = place := by
  have hlt := (List.getElem?_eq_some_iff.1 h.getElem?_eq).1
  rw [List.length_take]
  omega

/-- A filled field stands at its own place exactly if no blank field stands before it. -/
theorem place_eq_iff (h : FilledAt fields i place w) :
    place = i ↔ ∀ f ∈ fields.take place, f.isEmpty = false := by
  have hfilter := List.length_filter_eq_length_iff (l := fields.take place) (p := (!·.isEmpty))
  rw [h.length_before, h.length_take] at hfilter
  rw [eq_comm, hfilter]
  simp

end FilledAt

/-- Each of the filled fields stands at some place. -/
theorem exists_filledAt {fields : List String} {i : Nat} {w : String}
    (h : (fields.filter (!·.isEmpty))[i]? = some w) : ∃ place, FilledAt fields i place w := by
  induction fields generalizing i with
  | nil => exact absurd h (by simp)
  | cons f fields ih =>
    cases hf : f.isEmpty with
    | true =>
      rw [List.filter_cons_of_neg (by simp [hf])] at h
      obtain ⟨place, hw, hfilled, hbefore⟩ := ih h
      refine ⟨place + 1, hw, hfilled, ?_⟩
      rw [List.take_succ_cons, List.filter_cons_of_neg (by simp [hf]), hbefore]
    | false =>
      rw [List.filter_cons_of_pos (by simp [hf])] at h
      cases i with
      | zero =>
        obtain rfl := Option.some.inj h
        exact ⟨0, rfl, hf, rfl⟩
      | succ i =>
        obtain ⟨place, hw, hfilled, hbefore⟩ := ih h
        refine ⟨place + 1, hw, hfilled, ?_⟩
        rw [List.take_succ_cons, List.filter_cons_of_pos (by simp [hf]), List.length_cons, hbefore]

namespace Command

/-! ## The scores of a list -/

/-- The fields between the commas of a score list, blanks at their ends removed. -/
def scoreFields (text : String) : List String :=
  (Text.pieces (· == ',') text.toList).map fun w => Text.trim (String.ofList w)

/-- Every word of a list is the text of its score. -/
theorem readScores_eq_ok_iff {ws : List String} {ss : List Single} :
    readScores ws = .ok ss ↔ ws.map Binary.ofText? = ss.map some := by
  induction ws generalizing ss with
  | nil =>
    rw [List.map_nil, eq_comm (a := []), List.map_eq_nil_iff]
    exact ⟨fun h => (Except.ok.inj h).symm, fun h => h ▸ rfl⟩
  | cons w ws ih =>
    rw [List.map_cons, eq_comm (b := ss.map some), List.map_eq_cons_iff]
    unfold readScores
    cases hw : (Binary.ofText? w : Option Single) with
    | none => simp
    | some x =>
      rw [map_eq_ok_iff]
      constructor
      · rintro ⟨ss, hss, rfl⟩
        exact ⟨x, ss, rfl, rfl, (ih.1 hss).symm⟩
      · rintro ⟨_, ss, rfl, hx, hss⟩
        obtain rfl := Option.some.inj hx
        exact ⟨ss, ih.2 hss.symm, rfl⟩

/-- A word that is no number is the failure. -/
theorem of_readScores_eq_error {ws : List String} {f : Failure} (h : readScores ws = .error f) :
    ∃ w ∈ ws, (Binary.ofText? w : Option Single) = none ∧ f = .badScore w := by
  induction ws with
  | nil => exact absurd h (by simp [readScores])
  | cons w ws ih =>
    unfold readScores at h
    cases hw : (Binary.ofText? w : Option Single) with
    | none =>
      rw [hw] at h
      exact ⟨w, List.mem_cons_self, hw, (Except.error.inj h).symm⟩
    | some x =>
      rw [hw] at h
      obtain ⟨v, hv, hnone, rfl⟩ := ih (map_eq_error_iff.1 h)
      exact ⟨v, List.mem_cons_of_mem _ hv, hnone, rfl⟩

/-! ## The command -/

variable {d : Disk} {c : Config} {found : Catalog} {text : String} {k : Option Nat}
  {ss : List Single}

/-- The scores of a list that can be read are ranked by the catalog's names. -/
theorem execute_rank_of_readScores (hload : Catalog.load d c.catalog = .ok found)
    (hss : readScores (scoreWords text) = .ok ss) (colors : Bool) :
    execute colors d c (.rank text k) =
      .ofLines d
        ((Ranking.rank ss (k.getD c.inference.topK) found.names).map (predictionLines colors)) := by
  show runRank colors d c text k = _
  unfold runRank
  rw [hss]
  dsimp only
  rw [hload]
  rfl

theorem execute_rank_of_error {f : Failure} (hf : readScores (scoreWords text) = .error f)
    (colors : Bool) : execute colors d c (.rank text k) = .failed d f := by
  show runRank colors d c text k = _
  unfold runRank
  rw [hf]

/-- The predictions are of as many categories as asked for. Each category stands at the ordinal of
its score among the filled fields, which is the place of the field if none before it is blank. -/
structure RanksFields (text : String) (names : List String) (count : Nat)
    (ps : List (Prediction Single Double)) : Prop where
  length_eq : ps.length = count
  nodup_ordinals : (ps.map Prediction.ordinal).Nodup
  category_eq : ∀ p ∈ ps, names[p.ordinal]? = some p.category
  exists_field : ∀ p ∈ ps, ∃ place w, FilledAt (scoreFields text) p.ordinal place w ∧
    Binary.ofText? w = some p.score ∧
    (place = p.ordinal ↔ ∀ f ∈ (scoreFields text).take place, f.isEmpty = false)

theorem ranksFields_of_rank {names : List String} {count : Nat}
    {ps : List (Prediction Single Double)} (hss : readScores (scoreWords text) = .ok ss)
    (hps : Ranking.rank ss count names = .ok ps) : RanksFields text names count ps := by
  have hselects := selects_of_rankWith hps
  refine ⟨hselects.length_eq, hselects.nodup_ordinals, hselects.category_eq, fun p hp => ?_⟩
  have hscore := hselects.score_eq p hp
  have hword : ((scoreWords text).map Binary.ofText?)[p.ordinal]? = some (some p.score) := by
    rw [readScores_eq_ok_iff.1 hss, List.getElem?_map, hscore]
    rfl
  rw [List.getElem?_map, Option.map_eq_some_iff] at hword
  obtain ⟨w, hw, htext⟩ := hword
  obtain ⟨place, hplace⟩ := exists_filledAt hw
  exact ⟨place, w, hplace, htext, hplace.place_eq_iff⟩

/-- The rank command succeeds exactly if all filled fields are finite scores, the number to rank is
positive and no larger than theirs, and the highest of them stand at ordinals of categories. There
may be more or fewer scores than categories. -/
theorem rank_exact (hload : Catalog.load d c.catalog = .ok found) (colors : Bool) (text : String)
    (k : Option Nat) :
    let count := k.getD c.inference.topK
    let o := execute colors d c (.rank text k)
    ((∃ code, o.result = .ok code) ↔
      ∃ ss : List Single, (scoreWords text).map Binary.ofText? = ss.map some ∧ 0 < count ∧
        count ≤ ss.length ∧ (∀ s ∈ ss, s.isFinite = true) ∧
        ∀ e ∈ (ranking ss).take count, e.2 < found.size) ∧
    ∀ code, o.result = .ok code →
      ∃ ps, o = .printed d (predictionLines colors ps) ∧ RanksFields text found.names count ps := by
  intro count o
  have hcount : k.getD c.inference.topK = count := rfl
  clear_value count
  have hwords (ss : List Single) : (scoreWords text).map Binary.ofText? = ss.map some ↔
      readScores (scoreWords text) = .ok ss := readScores_eq_ok_iff.symm
  simp only [hwords]
  cases hss : readScores (scoreWords text) with
  | error f =>
    have ho : o = .failed d f := execute_rank_of_error hss colors
    rw [ho]
    simp [Outcome.failed]
  | ok ss =>
    have ho :
        o = .ofLines d ((Ranking.rank ss count found.names).map (predictionLines colors)) := by
      rw [← hcount]
      exact execute_rank_of_readScores hload hss colors
    simp only [Except.ok.injEq, exists_eq_left']
    rw [← found.length_names, ← exists_rank_iff, ho]
    cases hrank : Ranking.rank ss count found.names with
    | error e => simp [Outcome.ofLines, Outcome.failed, Except.map]
    | ok ps =>
      refine ⟨⟨fun _ => ⟨ps, rfl⟩, fun _ => ⟨.success, rfl⟩⟩, fun _ _ => ?_⟩
      exact ⟨ps, rfl, ranksFields_of_rank hss hrank⟩

/-! ## Three categories -/

def lettersDisk : Disk :=
  ["a", "b", "c"].foldl (fun d name => d.plantDirectory (Path.join "data/raw" name)) Disk.empty

def lettersSettings : Config := { catalog := { categories := ["a", "b", "c"] } }

def lettersCatalog : Catalog :=
  ⟨"data/raw", "edges", ["a", "b", "c"].map fun name => ⟨name, [], 0⟩⟩

theorem load_lettersCatalog :
    Catalog.load lettersDisk lettersSettings.catalog = .ok lettersCatalog := by
  decide +kernel

/-- The scores 2 and 1, in two fields of which no other is filled before the second. -/
theorem readScores_two_one {text : String} (h : scoreWords text = ["2", "1"]) :
    readScores (scoreWords text) = .ok [⟨0x40000000⟩, ⟨0x3F800000⟩] := by
  rw [h]
  decide +kernel

theorem ranking_two_one :
    ranking [(⟨0x40000000⟩ : Single), ⟨0x3F800000⟩] = [(⟨0x40000000⟩, 0), (⟨0x3F800000⟩, 1)] := by
  apply List.mergeSort_of_pairwise
  decide +kernel

theorem rank_exact_letters :
    let o := execute false lettersDisk lettersSettings (.rank "2, 1," (some 2))
    Catalog.load lettersDisk lettersSettings.catalog = .ok lettersCatalog ∧
      (∃ code, o.result = .ok code) ∧
      ∃ ps, o = .printed lettersDisk (predictionLines false ps) ∧
        RanksFields "2, 1," ["a", "b", "c"] 2 ps := by
  intro o
  have hwords : scoreWords "2, 1," = ["2", "1"] := by decide +kernel
  obtain ⟨hsucceeds, hprinted⟩ :=
    rank_exact load_lettersCatalog false "2, 1," (some 2)
  have hcode : ∃ code, o.result = .ok code := by
    refine hsucceeds.2 ⟨_, readScores_eq_ok_iff.1 (readScores_two_one hwords), by decide,
      by decide, by decide +kernel, ?_⟩
    rw [ranking_two_one]
    decide
  obtain ⟨code, hresult⟩ := hcode
  exact ⟨load_lettersCatalog, ⟨code, hresult⟩, hprinted code hresult⟩

/-- Of three fields for three categories the second one is blank, and the score of the third is
ranked as that of the second category. -/
theorem rank_blank_field : ∃ p q,
    Catalog.load lettersDisk lettersSettings.catalog = .ok lettersCatalog ∧
      execute false lettersDisk lettersSettings (.rank "2,,1" (some 2)) =
        .printed lettersDisk (predictionLines false [p, q]) ∧
      scoreFields "2,,1" = ["2", "", "1"] ∧ lettersCatalog.names = ["a", "b", "c"] ∧
      Binary.ofText? "1" = some q.score ∧ q.ordinal = 1 ∧ q.category = "b" := by
  have hwords : scoreWords "2,,1" = ["2", "1"] := by decide +kernel
  have hscores := readScores_two_one hwords
  obtain ⟨ps, hps⟩ : ∃ ps,
      Ranking.rank [⟨0x40000000⟩, ⟨0x3F800000⟩] 2 lettersCatalog.names = .ok ps := by
    refine exists_rank_iff.2 ⟨by decide, by decide, by decide +kernel, ?_⟩
    rw [ranking_two_one]
    decide
  have hmap := map_of_rankWith hps
  rw [ranking_two_one] at hmap
  obtain ⟨p, ps, rfl, -, hrest⟩ := List.map_eq_cons_iff.1 hmap
  obtain ⟨q, ps, rfl, hq, hnil⟩ := List.map_eq_cons_iff.1 hrest
  obtain rfl := List.map_eq_nil_iff.1 hnil
  obtain ⟨hscore, hordinal⟩ := Prod.mk.inj hq
  have hcategory := (selects_of_rankWith hps).category_eq q (by simp)
  rw [hordinal] at hcategory
  refine ⟨p, q, load_lettersCatalog, ?_, by decide +kernel, rfl, ?_, hordinal,
    (Option.some.inj hcategory).symm⟩
  · rw [execute_rank_of_readScores load_lettersCatalog hscores]
    exact congrArg (fun x => Outcome.ofLines lettersDisk (Except.map (predictionLines false) x)) hps
  · rw [hscore]
    decide +kernel

end Command

end TreeCorpus
