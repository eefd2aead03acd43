import TreeCorpus.Proofs.Outcome
import TreeCorpus.Ranking.Ranked

/-!
# Ranking scores

The highest scores can be taken exactly when their number is positive and no larger than the list,
and every score is finite (`topScores_eq_ok_iff`). When each position has a name, nothing else stops
a ranking (`exists_rankWith_iff`, `rankWith_eq_error_iff`), and it shows distinct positions with the
name and the score that stand there (`selects_of_rankWith`).
-/

namespace TreeCorpus.Ranking

variable {σ κ : Type}

/-! ## The highest scores -/

section Top

variable [Score σ] {scores : List σ} {k i : Nat} {s : σ} {es : List (σ × Nat)} {e : Error}

theorem mem_ranking_iff : (s, i) ∈ ranking scores ↔ scores[i]? = some s := by
  rw [(ranking_perm scores).mem_iff, List.mk_mem_zipIdx_iff_getElem?]

theorem nodup_map_snd_ranking (scores : List σ) : ((ranking scores).map Prod.snd).Nodup := by
  rw [((ranking_perm scores).map Prod.snd).nodup_iff, List.zipIdx_map_snd]
  exact List.nodup_range'

theorem topScores_eq_ok_iff :
    topScores scores k = .ok es ↔
      0 < k ∧ k ≤ scores.length ∧ (∀ s ∈ scores, Score.isFinite s = true) ∧
        es = (ranking scores).take k := by
  unfold topScores
  by_cases hk : k = 0 ∨ scores.length < k
  · rw [if_pos hk]
    constructor
    · intro h
      exact nomatch h
    · rintro ⟨hpos, hle, -, -⟩
      omega
  · rw [if_neg hk]
    cases hi : scores.findIdx? (!Score.isFinite ·) with
    | some i =>
      constructor
      · intro h
        exact nomatch h
      · rintro ⟨-, -, hfinite, -⟩
        obtain ⟨hlt, hnot, -⟩ := List.findIdx?_eq_some_iff_getElem.1 hi
        rw [hfinite _ (List.getElem_mem hlt)] at hnot
        exact absurd hnot (by decide)
    | none =>
      have hfinite : ∀ s ∈ scores, Score.isFinite s = true := by
        intro s hs
        rw [← Bool.not_eq_false']
        exact List.findIdx?_eq_none_iff.1 hi s hs
      constructor
      · intro h
        exact ⟨by omega, by omega, hfinite, (Except.ok.inj h).symm⟩
      · rintro ⟨-, -, -, rfl⟩
        rfl

/-- Without a value the number of scores to take is out of bounds, or a score is not finite. -/
theorem of_topScores_eq_error (h : topScores scores k = .error e) :
    e = .invalidTopK k scores.length ∨ ∃ i, e = .invalidScore i := by
  unfold topScores at h
  split at h
  · exact Or.inl (Except.error.inj h).symm
  · split at h
    · exact Or.inr ⟨_, (Except.error.inj h).symm⟩
    · exact nomatch h

end Top

/-! ## Naming positions -/

section Names

variable {names : List String} {es : List ((σ × Nat) × κ)} {ps : List (Prediction σ κ)}

/-- Named scores are the given ones, each with the name at its position. -/
theorem nameAll_eq_ok_iff :
    nameAll names es = .ok ps ↔
      ps.map (fun p => ((p.score, p.ordinal), p.confidence)) = es ∧
        ∀ p ∈ ps, names[p.ordinal]? = some p.category := by
  induction es generalizing ps with
  | nil =>
    rw [List.map_eq_nil_iff]
    constructor
    · intro h
      obtain rfl := Except.ok.inj h
      exact ⟨rfl, by simp⟩
    · rintro ⟨rfl, -⟩
      rfl
  | cons e es ih =>
    obtain ⟨⟨s, i⟩, c⟩ := e
    unfold nameAll
    cases hi : names[i]? with
    | none =>
      constructor
      · intro h
        exact nomatch h
      · rintro ⟨hmap, hnames⟩
        obtain ⟨p, ps, rfl, hp, -⟩ := List.map_eq_cons_iff.1 hmap
        obtain ⟨⟨-, rfl⟩, -⟩ := Prod.mk.inj hp |>.imp Prod.mk.inj id
        rw [hnames p List.mem_cons_self] at hi
        exact nomatch hi
    | some name =>
      rw [map_eq_ok_iff]
      constructor
      · rintro ⟨ps, hps, rfl⟩
        obtain ⟨rfl, hnames⟩ := ih.1 hps
        exact ⟨rfl, List.forall_mem_cons.2 ⟨hi, hnames⟩⟩
      · rintro ⟨hmap, hnames⟩
        obtain ⟨p, ps, rfl, hp, hrest⟩ := List.map_eq_cons_iff.1 hmap
        obtain ⟨hname, hnames⟩ := List.forall_mem_cons.1 hnames
        obtain ⟨⟨rfl, rfl⟩, rfl⟩ := Prod.mk.inj hp |>.imp Prod.mk.inj id
        obtain rfl : p.category = name := Option.some.inj (hname.symm.trans hi)
        exact ⟨ps, ih.2 ⟨hrest, hnames⟩, rfl⟩

theorem exists_nameAll (h : ∀ e ∈ es, e.1.2 < names.length) : ∃ ps, nameAll names es = .ok ps := by
  induction es with
  | nil => exact ⟨[], rfl⟩
  | cons e es ih =>
    obtain ⟨⟨s, i⟩, c⟩ := e
    obtain ⟨hi, hrest⟩ := List.forall_mem_cons.1 h
    obtain ⟨ps, hps⟩ := ih hrest
    unfold nameAll
    rw [List.getElem?_eq_getElem hi, hps]
    exact ⟨_, rfl⟩

theorem exists_nameAll_iff :
    (∃ ps, nameAll names es = .ok ps) ↔ ∀ e ∈ es, e.1.2 < names.length := by
  refine ⟨?_, exists_nameAll⟩
  rintro ⟨ps, hps⟩ e he
  obtain ⟨rfl, hnames⟩ := nameAll_eq_ok_iff.1 hps
  obtain ⟨p, hp, rfl⟩ := List.mem_map.1 he
  exact (List.getElem?_eq_some_iff.1 (hnames p hp)).1

theorem of_nameAll_eq_error {e : Error} (h : nameAll names es = .error e) :
    ∃ i, e = .invalidOrdinal i names.length := by
  induction es with
  | nil => exact absurd h (by simp [nameAll])
  | cons x es ih =>
    obtain ⟨⟨s, i⟩, c⟩ := x
    unfold nameAll at h
    cases hi : names[i]? with
    | none =>
      rw [hi] at h
      exact ⟨i, (Except.error.inj h).symm⟩
    | some name =>
      rw [hi] at h
      exact ih (map_eq_error_iff.1 h)

end Names

/-! ## Rankings -/

/-- The predictions are of `k` distinct positions, each with the name and the score there. -/
structure Selects (scores : List σ) (k : Nat) (names : List String)
    (ps : List (Prediction σ κ)) : Prop where
  length_eq : ps.length = k
  nodup_ordinals : (ps.map Prediction.ordinal).Nodup
  ordinal_lt : ∀ p ∈ ps, p.ordinal < names.length
  category_eq : ∀ p ∈ ps, names[p.ordinal]? = some p.category
  score_eq : ∀ p ∈ ps, scores[p.ordinal]? = some p.score

section Rank

variable [Score σ] [Number.Exponential κ] {widen : σ → κ} {scores : List σ} {k : Nat}
  {names : List String} {ps : List (Prediction σ κ)}

/-- A ranking takes the highest scores and names them. -/
theorem rankWith_eq_ok_iff :
    rankWith widen scores k names = .ok ps ↔
      ∃ es, topScores scores k = .ok es ∧
        nameAll names (es.zip (softmax (es.map fun e => widen e.1))) = .ok ps := by
  unfold rankWith
  cases topScores scores k <;> simp

/-- A ranking shows the highest scores with their positions. -/
theorem map_of_rankWith (h : rankWith widen scores k names = .ok ps) :
    ps.map (fun p => (p.score, p.ordinal)) = (ranking scores).take k := by
  obtain ⟨es, htop, hname⟩ := rankWith_eq_ok_iff.1 h
  obtain ⟨hmap, -⟩ := nameAll_eq_ok_iff.1 hname
  obtain ⟨-, -, -, htake⟩ := topScores_eq_ok_iff.1 htop
  have hfst := congrArg (List.map Prod.fst) hmap
  rw [List.map_map, List.map_fst_zip (by simp)] at hfst
  rw [← htake, ← hfst]
  rfl

theorem selects_of_rankWith (h : rankWith widen scores k names = .ok ps) :
    Selects scores k names ps := by
  obtain ⟨es, htop, hname⟩ := rankWith_eq_ok_iff.1 h
  obtain ⟨-, hcategory⟩ := nameAll_eq_ok_iff.1 hname
  obtain ⟨-, -, -, htake⟩ := topScores_eq_ok_iff.1 htop
  have hmap := map_of_rankWith h
  refine ⟨?_, ?_, ?_, hcategory, ?_⟩
  · rw [← length_topScores htop, htake, ← hmap, List.length_map]
  · have hsnd : ps.map Prediction.ordinal = ((ranking scores).take k).map Prod.snd := by
      rw [← hmap, List.map_map]
      rfl
    rw [hsnd]
    exact (nodup_map_snd_ranking scores).sublist ((List.take_sublist k _).map Prod.snd)
  · intro p hp
    exact (List.getElem?_eq_some_iff.1 (hcategory p hp)).1
  · intro p hp
    have hmem : (p.score, p.ordinal) ∈ (ranking scores).take k := hmap ▸ List.mem_map_of_mem hp
    exact mem_ranking_iff.1 (List.mem_of_mem_take hmem)

/-- When every position has a name, the scores that can be taken are ranked. -/
theorem exists_rankWith (hlen : scores.length ≤ names.length) {es : List (σ × Nat)}
    (h : topScores scores k = .ok es) : ∃ ps, rankWith widen scores k names = .ok ps := by
  obtain ⟨-, -, -, rfl⟩ := topScores_eq_ok_iff.1 h
  have hlt : ∀ e ∈ ((ranking scores).take k).zip
      (softmax (((ranking scores).take k).map fun e => widen e.1)), e.1.2 < names.length := by
    rintro ⟨⟨s, i⟩, c⟩ he
    have hmem := List.mem_of_mem_take (List.of_mem_zip he).1
    have hi := (List.getElem?_eq_some_iff.1 (mem_ranking_iff.1 hmem)).1
    exact Nat.lt_of_lt_of_le hi hlen
  obtain ⟨ps, hps⟩ := exists_nameAll hlt
  exact ⟨ps, rankWith_eq_ok_iff.2 ⟨_, h, hps⟩⟩

theorem exists_rankWith_iff (hlen : scores.length ≤ names.length) :
    (∃ ps, rankWith widen scores k names = .ok ps) ↔
      0 < k ∧ k ≤ scores.length ∧ ∀ s ∈ scores, Score.isFinite s = true := by
  constructor
  · rintro ⟨ps, hps⟩
    obtain ⟨es, htop, -⟩ := rankWith_eq_ok_iff.1 hps
    obtain ⟨hpos, hle, hfinite, -⟩ := topScores_eq_ok_iff.1 htop
    exact ⟨hpos, hle, hfinite⟩
  · rintro ⟨hpos, hle, hfinite⟩
    exact exists_rankWith hlen (topScores_eq_ok_iff.2 ⟨hpos, hle, hfinite, rfl⟩)

/-- When every position has a name, a ranking fails only where no scores can be taken. -/
theorem rankWith_eq_error_iff (hlen : scores.length ≤ names.length) {e : Error} :
    rankWith widen scores k names = .error e ↔ topScores scores k = .error e := by
  cases htop : topScores scores k with
  | error f =>
    unfold rankWith
    simp only [htop, Except.error.injEq]
  | ok es =>
    obtain ⟨ps, hps⟩ : ∃ ps, rankWith widen scores k names = .ok ps := exists_rankWith hlen htop
    rw [hps]
    simp

/-- The scores that can be taken are ranked exactly when all their positions have names. -/
theorem exists_rankWith_iff_lt :
    (∃ ps, rankWith widen scores k names = .ok ps) ↔
      0 < k ∧ k ≤ scores.length ∧ (∀ s ∈ scores, Score.isFinite s = true) ∧
        ∀ e ∈ (ranking scores).take k, e.2 < names.length := by
  -- what is named are the positions taken, whatever their shares are
  have hzip : ∀ es : List (σ × Nat),
      (∀ x ∈ es.zip (softmax (es.map fun e => widen e.1)), x.1.2 < names.length) ↔
        ∀ e ∈ es, e.2 < names.length := by
    intro es
    have hfst : (es.zip (softmax (es.map fun e => widen e.1))).map Prod.fst = es :=
      List.map_fst_zip (by simp)
    have hmap : (∀ e ∈ (es.zip (softmax (es.map fun e => widen e.1))).map Prod.fst,
        e.2 < names.length) ↔ _ := List.forall_mem_map
    rw [hfst] at hmap
    exact hmap.symm
  simp only [rankWith_eq_ok_iff, topScores_eq_ok_iff]
  constructor
  · rintro ⟨ps, es, ⟨hpos, hle, hfinite, rfl⟩, hps⟩
    exact ⟨hpos, hle, hfinite, (hzip _).1 (exists_nameAll_iff.1 ⟨ps, hps⟩)⟩
  · rintro ⟨hpos, hle, hfinite, hlt⟩
    obtain ⟨ps, hps⟩ := exists_nameAll_iff.2 ((hzip _).2 hlt)
    exact ⟨ps, _, ⟨hpos, hle, hfinite, rfl⟩, hps⟩

/-- A ranking fails because of the number of scores to take, of a score, or of a position without a
name. -/
theorem of_rankWith_eq_error {e : Error} (h : rankWith widen scores k names = .error e) :
    e = .invalidTopK k scores.length ∨ (∃ i, e = .invalidScore i) ∨
      ∃ i, e = .invalidOrdinal i names.length := by
  unfold rankWith at h
  split at h
  · rename_i htop
    obtain rfl := Except.error.inj h
    exact (of_topScores_eq_error htop).imp_right Or.inl
  · exact Or.inr (Or.inr (of_nameAll_eq_error h))

end Rank

/-- Scores of 32 bits are ranked exactly when as many as asked for can be taken and named. -/
theorem exists_rank_iff {scores : List Number.Single} {k : Nat} {names : List String} :
    (∃ ps, rank scores k names = .ok ps) ↔
      0 < k ∧ k ≤ scores.length ∧ (∀ s ∈ scores, s.isFinite = true) ∧
        ∀ e ∈ (ranking scores).take k, e.2 < names.length :=
  exists_rankWith_iff_lt

end TreeCorpus.Ranking
