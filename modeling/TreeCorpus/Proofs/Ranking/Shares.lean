import Mathlib.Analysis.SpecialFunctions.Exp
import TreeCorpus.Proofs.Ranking.Softmax
import TreeCorpus.Proofs.Ranking.TopK

/-!
# Confidences in exact arithmetic

Without rounding, the confidences of a ranking are positive shares of one whole, in the order of the
scores (`sharesWhole_of_rankWith`). They depend on the distances between the scores only: scores
that all move by the same distance are ranked in the same order with the same confidences
(`shares_of_exact_scores`).
-/

namespace TreeCorpus.Ranking

open Number

/-! ## Scores with exact values -/

/-- Scores with values by which the finite ones are compared. -/
class ExactScore (K σ : Type) [LinearOrder K] [Score σ] extends LawfulScore σ where
  value : σ → K
  lower_iff : ∀ {s t : σ}, Score.isFinite s = true → Score.isFinite t = true →
    (Score.lower s t = true ↔ value s < value t)

/-- A score that is its own value. -/
structure Exact (K : Type) where
  value : K

section Instances

variable {K : Type} [LinearOrder K]

instance : Score (Exact K) where
  isFinite _ := true
  lower s t := decide (s.value < t.value)

instance : ExactScore K (Exact K) where
  value := Exact.value
  lower_iff _ _ := decide_eq_true_iff
  asymm h := decide_eq_false (of_decide_eq_true h).not_gt
  trans h h' := decide_eq_false
    (not_lt.2 ((not_lt.1 (of_decide_eq_false h')).trans (not_lt.1 (of_decide_eq_false h))))

instance [Field K] [IsStrictOrderedRing K] : ExactScore K Single where
  value := Binary.value K
  lower_iff := less_iff_value_lt

noncomputable instance : ExactExponential ℝ where
  exp := Real.exp
  strictMono := Real.exp_strictMono
  pos := Real.exp_pos
  exp_zero := Real.exp_zero

end Instances

/-! ## What a ranking shows -/

section Shown

variable {σ κ : Type} {scores : List σ} {k : Nat} {names : List String}
  {ps : List (Prediction σ κ)}

/-- The position, the name and the share of a prediction. -/
def shown (p : Prediction σ κ) : Nat × String × κ := (p.ordinal, p.category, p.confidence)

/-- The names follow from the positions. -/
theorem map_shown (h : ∀ p ∈ ps, names[p.ordinal]? = some p.category) :
    ps.map shown = ((ps.map Prediction.ordinal).zip (ps.map Prediction.confidence)).map
      fun e => (e.1, names[e.1]?.getD "", e.2) := by
  rw [List.zip_map', List.map_map]
  refine List.map_congr_left fun p hp => ?_
  rw [Function.comp_apply, h p hp]
  rfl

variable [Score σ] [Exponential κ] {widen : σ → κ}

theorem map_ordinal_of_rankWith (h : rankWith widen scores k names = .ok ps) :
    ps.map Prediction.ordinal = (order scores).take k := by
  rw [order, ← List.map_take, ← map_of_rankWith h, List.map_map]
  rfl

/-- The confidences are the shares of the scores shown. -/
theorem map_confidence_of_rankWith (h : rankWith widen scores k names = .ok ps) :
    ps.map Prediction.confidence = softmax (ps.map fun p => widen p.score) := by
  obtain ⟨es, htop, hname⟩ := rankWith_eq_ok_iff.1 h
  obtain ⟨hmap, -⟩ := nameAll_eq_ok_iff.1 hname
  obtain ⟨-, -, -, htake⟩ := topScores_eq_ok_iff.1 htop
  have hes : es.map (fun e => widen e.1) = ps.map fun p => widen p.score := by
    rw [htake, ← map_of_rankWith h, List.map_map]
    rfl
  have hsnd := congrArg (List.map Prod.snd) hmap
  rw [List.map_map, List.map_snd_zip (by simp), hes] at hsnd
  exact hsnd

theorem finite_of_rankWith (h : rankWith widen scores k names = .ok ps) :
    ∀ s ∈ scores, Score.isFinite s = true := by
  obtain ⟨es, htop, -⟩ := rankWith_eq_ok_iff.1 h
  exact (topScores_eq_ok_iff.1 htop).2.2.1

/-- Scores are ranked when their number is in bounds, all are finite, and the positions taken have
names. -/
theorem exists_rankWith_of_order (hpos : 0 < k) (hle : k ≤ scores.length)
    (hfinite : ∀ s ∈ scores, Score.isFinite s = true)
    (hnames : ∀ i ∈ (order scores).take k, i < names.length) :
    ∃ ps, rankWith widen scores k names = .ok ps := by
  refine exists_rankWith_iff_lt.2 ⟨hpos, hle, hfinite, fun e he => hnames e.2 ?_⟩
  rw [order, ← List.map_take]
  exact List.mem_map_of_mem he

end Shown

/-! ## Scores that move together -/

variable {K σ τ : Type} [Field K] [LinearOrder K] [Score σ] [ExactScore K σ] [Score τ]
  [ExactScore K τ] {scores : List σ} {shifted : List τ} {k : Nat} {names : List String}
  {ps : List (Prediction σ K)} {qs : List (Prediction τ K)} {c : K}

section Shifted

theorem value_of_shifted (hshift : shifted.map ExactScore.value =
    scores.map fun s => (ExactScore.value s : K) + c) {i : Nat} {s : σ} {t : τ}
    (hs : scores[i]? = some s) (ht : shifted[i]? = some t) :
    (ExactScore.value t : K) = ExactScore.value s + c := by
  have hget := congrArg (·[i]?) hshift
  simp only [List.getElem?_map, hs, ht, Option.map_some, Option.some.injEq] at hget
  exact hget

variable [IsStrictOrderedRing K]

/-- Scores that move together keep their order. -/
theorem order_of_shifted (hshift : shifted.map ExactScore.value =
    scores.map fun s => (ExactScore.value s : K) + c)
    (hfinite : ∀ s ∈ scores, Score.isFinite s = true)
    (hfinite' : ∀ t ∈ shifted, Score.isFinite t = true) : order shifted = order scores := by
  have hlen : shifted.length = scores.length := by simpa using congrArg List.length hshift
  refine order_congr hlen fun i j t t' s s' ht ht' hs hs' => ?_
  rw [Bool.eq_iff_iff,
    ExactScore.lower_iff (K := K) (hfinite' t (List.mem_of_getElem? ht))
      (hfinite' t' (List.mem_of_getElem? ht')),
    ExactScore.lower_iff (K := K) (hfinite s (List.mem_of_getElem? hs))
      (hfinite s' (List.mem_of_getElem? hs')),
    value_of_shifted hshift hs ht, value_of_shifted hshift hs' ht', add_lt_add_iff_right]

end Shifted

/-! ## The shares -/

/-- The confidences share out one whole in the order of the scores. -/
structure SharesWhole (ps : List (Prediction σ K)) : Prop where
  mem_unit : ∀ p ∈ ps, 0 < p.confidence ∧ p.confidence ≤ 1
  sum_eq_one : (ps.map Prediction.confidence).sum = 1
  sorted : ps.Pairwise fun p q => q.confidence ≤ p.confidence
  eq_iff : ∀ p ∈ ps, ∀ q ∈ ps, p.confidence = q.confidence ↔
    (ExactScore.value p.score : K) = ExactScore.value q.score

variable [ExactExponential K]

/-- A ranking shows higher values first. -/
theorem pairwise_value_of_rankWith
    (h : rankWith (ExactScore.value : σ → K) scores k names = .ok ps) :
    ps.Pairwise fun p q => (ExactScore.value q.score : K) ≤ ExactScore.value p.score := by
  have hscore := (selects_of_rankWith h).score_eq
  have hbefore : (ps.map Prediction.ordinal).Pairwise (Before scores) := by
    rw [map_ordinal_of_rankWith h]
    exact (pairwise_order scores).sublist (List.take_sublist ..)
  refine (List.pairwise_map.1 hbefore).imp_of_mem fun {p q} hp hq hpq => ?_
  obtain ⟨s, t, hs, ht, hlower, -⟩ := hpq
  obtain rfl := Option.some.inj ((hscore p hp).symm.trans hs)
  obtain rfl := Option.some.inj ((hscore q hq).symm.trans ht)
  have hfinite := finite_of_rankWith h
  rw [← not_lt, ← ExactScore.lower_iff (hfinite _ (List.mem_of_getElem? hs))
    (hfinite _ (List.mem_of_getElem? ht)), hlower]
  exact Bool.false_ne_true

variable [IsStrictOrderedRing K]

theorem sharesWhole_of_rankWith (hne : ps ≠ [])
    (h : rankWith (ExactScore.value : σ → K) scores k names = .ok ps) : SharesWhole ps := by
  have hvalues : (ps.map fun p => (ExactScore.value p.score : K)) ≠ [] := by simpa using hne
  obtain ⟨share, hmono, heq, hunit, hsum⟩ := exists_share hvalues
  have hconf := map_confidence_of_rankWith h
  rw [heq] at hconf
  have hshare : ∀ p ∈ ps, p.confidence = share (ExactScore.value p.score) := by
    rw [List.map_map] at hconf
    exact List.map_inj_left.1 hconf
  refine ⟨fun p hp => ?_, ?_, ?_, fun p hp q hq => ?_⟩
  · rw [hshare p hp]
    exact hunit _ (List.mem_map_of_mem (f := fun p => (ExactScore.value p.score : K)) hp)
  · rw [hconf]
    exact hsum
  · refine (pairwise_value_of_rankWith h).imp_of_mem fun {p q} hp hq hle => ?_
    rw [hshare p hp, hshare q hq]
    exact hmono.monotone hle
  · rw [hshare p hp, hshare q hq]
    exact hmono.injective.eq_iff

/-- Scores that move together keep their names and confidences. -/
theorem map_shown_of_shifted (hshift : shifted.map ExactScore.value =
    scores.map fun s => (ExactScore.value s : K) + c)
    (h : rankWith (ExactScore.value : σ → K) scores k names = .ok ps)
    (h' : rankWith (ExactScore.value : τ → K) shifted k names = .ok qs) :
    qs.map shown = ps.map shown := by
  have hsel := selects_of_rankWith h
  have hsel' := selects_of_rankWith h'
  have hordinal : qs.map Prediction.ordinal = ps.map Prediction.ordinal := by
    rw [map_ordinal_of_rankWith h, map_ordinal_of_rankWith h',
      order_of_shifted hshift (finite_of_rankWith h) (finite_of_rankWith h')]
  have hvalues : qs.map (fun q => (ExactScore.value q.score : K)) =
      (ps.map fun p => (ExactScore.value p.score : K)).map (· + c) := by
    have hlen : qs.length = ps.length := by simpa using congrArg List.length hordinal
    refine List.ext_getElem (by simpa using hlen) fun i hi hi' => ?_
    rw [List.length_map] at hi
    have hi' : i < ps.length := hlen ▸ hi
    have hord : qs[i].ordinal = ps[i].ordinal := by
      simpa [hi, hi'] using congrArg (·[i]?) hordinal
    simp only [List.getElem_map]
    exact value_of_shifted hshift (hsel.score_eq _ (List.getElem_mem hi'))
      (hord ▸ hsel'.score_eq _ (List.getElem_mem hi))
  rw [map_shown hsel.category_eq, map_shown hsel'.category_eq, hordinal,
    map_confidence_of_rankWith h, map_confidence_of_rankWith h', hvalues, softmax_map_add]

/-- Over exact arithmetic, finite scores whose highest have names are ranked. The confidences share
out one whole in the order of the scores, and scores that all move by the same distance are shown
alike. -/
theorem shares_of_exact_scores (hpos : 0 < k) (hle : k ≤ scores.length)
    (hfinite : ∀ s ∈ scores, Score.isFinite s = true)
    (hnames : ∀ is, topK scores k = .ok is → ∀ i ∈ is, i < names.length) :
    ∃ ps, rankWith (ExactScore.value : σ → K) scores k names = .ok ps ∧ Selects scores k names ps ∧
      1 ≤ sum (exponentials (ps.map fun p => (ExactScore.value p.score : K))) ∧
      SharesWhole ps ∧
      ∀ (τ : Type) [Score τ] [ExactScore K τ] (shifted : List τ) (c : K),
        (∀ t ∈ shifted, Score.isFinite t = true) →
        shifted.map ExactScore.value = scores.map (fun s => (ExactScore.value s : K) + c) →
        ∃ qs, rankWith (ExactScore.value : τ → K) shifted k names = .ok qs ∧
          qs.map shown = ps.map shown := by
  have hlt : ∀ i ∈ (order scores).take k, i < names.length :=
    hnames _ (topK_eq_ok_iff.2 ⟨hpos, hle, hfinite, rfl⟩)
  obtain ⟨ps, h⟩ : ∃ ps, rankWith (ExactScore.value : σ → K) scores k names = .ok ps :=
    exists_rankWith_of_order hpos hle hfinite hlt
  have hsel := selects_of_rankWith h
  have hne : ps ≠ [] := by
    rintro rfl
    exact absurd hsel.length_eq (by simpa using hpos.ne)
  refine ⟨ps, h, hsel, one_le_sum_exponentials (by simpa using hne), sharesWhole_of_rankWith hne h,
    fun τ _ _ shifted c hfinite' hshift => ?_⟩
  have hlen : shifted.length = scores.length := by simpa using congrArg List.length hshift
  obtain ⟨qs, h'⟩ : ∃ qs, rankWith (ExactScore.value : τ → K) shifted k names = .ok qs :=
    exists_rankWith_of_order hpos (hlen ▸ hle) hfinite'
      (order_of_shifted hshift hfinite hfinite' ▸ hlt)
  exact ⟨qs, h', map_shown_of_shifted hshift h h'⟩

/-- Two zeros with different signs and a higher score. -/
theorem shares_of_exact_scores_zeros : ∃ (scores : List Single) (ps : List (Prediction Single ℝ)),
    scores = [.zero true, .zero false, .ofNat 1] ∧
      rankWith (Binary.value ℝ) scores 3 ["a", "b", "c"] = .ok ps ∧ SharesWhole ps := by
  have hfinite : ∀ s ∈ ([.zero true, .zero false, .ofNat 1] : List Single),
      Score.isFinite s = true := by decide
  have hnames : ∀ is, topK ([.zero true, .zero false, .ofNat 1] : List Single) 3 = .ok is →
      ∀ i ∈ is, i < ["a", "b", "c"].length := by
    intro is his i hi
    obtain ⟨-, -, -, rfl⟩ := topK_eq_ok_iff.1 his
    exact Nat.lt_of_lt_of_le (mem_order_iff.1 (List.mem_of_mem_take hi)) (Nat.le_refl 3)
  obtain ⟨ps, h, -, -, hshares, -⟩ :=
    shares_of_exact_scores (K := ℝ) (by decide) (by decide) hfinite hnames
  exact ⟨_, ps, rfl, h, hshares⟩

end TreeCorpus.Ranking
