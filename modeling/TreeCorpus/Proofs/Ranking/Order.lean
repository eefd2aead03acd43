import Mathlib.Data.List.Nodup
import Mathlib.Data.List.Perm.Basic
import TreeCorpus.Proofs.Ranking.Ranked

/-!
# The order of a ranking

A ranking puts higher scores first and equal ones in the order of their positions
(`pairwise_order`), since the sort is stable. This says all about it: positions that are listed in
this order, and come before every position left out, are the first ones of the ranking
(`eq_take_order`). Scores of another type that compare alike are ranked alike (`order_congr`).
-/

namespace TreeCorpus.Ranking

/-- Scores of which one is lower, or which are as high as each other. -/
class LawfulScore (σ : Type) [Score σ] : Prop where
  asymm : ∀ {s t : σ}, Score.lower s t = true → Score.lower t s = false
  trans : ∀ {s t u : σ}, Score.lower s t = false → Score.lower t u = false →
    Score.lower s u = false

instance : LawfulScore Number.Single where
  asymm {s t} h := by
    have hlt : s.key < t.key := of_decide_eq_true h
    exact decide_eq_false (by omega)
  trans {s t u} h h' := by
    have hle : ¬ s.key < t.key := of_decide_eq_false h
    have hle' : ¬ t.key < u.key := of_decide_eq_false h'
    exact decide_eq_false (by omega)

theorem LawfulScore.irrefl {σ : Type} [Score σ] [LawfulScore σ] (s : σ) :
    Score.lower s s = false := by
  cases h : Score.lower s s
  · rfl
  · exact h.symm.trans (LawfulScore.asymm h)

/-! ## Positions -/

section Positions

variable {σ : Type} [Score σ] {scores : List σ} {i j : Nat}

/-- The positions of a ranking. -/
def order (scores : List σ) : List Nat := (ranking scores).map Prod.snd

theorem order_perm (scores : List σ) : (order scores).Perm (List.range scores.length) := by
  have hperm := (ranking_perm scores).map Prod.snd
  rwa [List.zipIdx_map_snd, ← List.range_eq_range'] at hperm

@[simp] theorem length_order (scores : List σ) : (order scores).length = scores.length := by
  simp [order]

theorem mem_order_iff : i ∈ order scores ↔ i < scores.length := by
  rw [(order_perm scores).mem_iff, List.mem_range]

theorem nodup_order (scores : List σ) : (order scores).Nodup := nodup_map_snd_ranking scores

/-- The score at `i` comes before the one at `j`: it is higher, or it is as high and stands at a
lower position. -/
def Before (scores : List σ) (i j : Nat) : Prop :=
  ∃ s t, scores[i]? = some s ∧ scores[j]? = some t ∧
    Score.lower s t = false ∧ (Score.lower t s = false → i < j)

/-- Of two scores only one comes before the other. -/
theorem Before.asymm (h : Before scores i j) : ¬ Before scores j i := by
  rintro ⟨t', s', ht', hs', hlower', hlt'⟩
  obtain ⟨s, t, hs, ht, hlower, hlt⟩ := h
  obtain rfl := Option.some.inj (hs.symm.trans hs')
  obtain rfl := Option.some.inj (ht.symm.trans ht')
  have := hlt hlower'
  have := hlt' hlower
  omega

/-- The entries as high as `x`. -/
def tied (x y : σ × Nat) : Bool := !Score.lower x.1 y.1 && !Score.lower y.1 x.1

theorem tied_iff {x y : σ × Nat} :
    tied x y = true ↔ Score.lower x.1 y.1 = false ∧ Score.lower y.1 x.1 = false := by
  simp [tied]

theorem pairwise_zipIdx {α : Type} (l : List α) : l.zipIdx.Pairwise fun a b => a.2 < b.2 := by
  have hpair : (l.zipIdx.map Prod.snd).Pairwise (· < ·) := by
    rw [List.zipIdx_map_snd]
    exact List.pairwise_lt_range' 1
  exact List.pairwise_map.1 hpair

end Positions

variable {σ τ : Type} [Score σ] [Score τ] [LawfulScore σ] [LawfulScore τ] {scores : List σ}
  {k : Nat} {is : List Nat}

/-! ## Stability -/

theorem not_lower_trans (a b c : σ × Nat) (hab : (!Score.lower a.1 b.1) = true)
    (hbc : (!Score.lower b.1 c.1) = true) : (!Score.lower a.1 c.1) = true := by
  rw [Bool.not_eq_true'] at *
  exact LawfulScore.trans hab hbc

theorem not_lower_total (a b : σ × Nat) :
    (!Score.lower a.1 b.1 || !Score.lower b.1 a.1) = true := by
  cases h : Score.lower a.1 b.1
  · rfl
  · rw [LawfulScore.asymm h]
    rfl

/-- A ranking keeps scores that are as high as each other in the order in which they stood. -/
theorem filter_tied_ranking (scores : List σ) (x : σ × Nat) :
    (ranking scores).filter (tied x) = scores.zipIdx.filter (tied x) := by
  have hpair : (scores.zipIdx.filter (tied x)).Pairwise
      fun a b => (!Score.lower a.1 b.1) = true := by
    refine List.pairwise_of_forall_mem_list fun a ha b hb => ?_
    have ha := tied_iff.1 (List.mem_filter.1 ha).2
    have hb := tied_iff.1 (List.mem_filter.1 hb).2
    rw [LawfulScore.trans ha.2 hb.1]
    rfl
  have hsub : (scores.zipIdx.filter (tied x)).Sublist (ranking scores) :=
    List.sublist_mergeSort not_lower_trans not_lower_total hpair List.filter_sublist
  have hfilter := hsub.filter (tied x)
  simp only [List.filter_filter, Bool.and_self] at hfilter
  exact (hfilter.eq_of_length ((ranking_perm scores).filter (tied x)).length_eq.symm).symm

/-- In a ranking every score comes before those behind it. -/
theorem pairwise_order (scores : List σ) : (order scores).Pairwise (Before scores) := by
  refine List.pairwise_map.2 (List.pairwise_iff_forall_sublist.2 fun {a b} hab => ?_)
  have hlower : Score.lower a.1 b.1 = false := by
    have hpair := List.pairwise_mergeSort not_lower_trans not_lower_total scores.zipIdx
    rw [← Bool.not_eq_true']
    exact List.pairwise_iff_forall_sublist.1 hpair hab
  refine ⟨a.1, b.1, mem_ranking_iff.1 (hab.subset List.mem_cons_self),
    mem_ranking_iff.1 (hab.subset (List.mem_cons_of_mem _ List.mem_cons_self)), hlower,
    fun hlower' => ?_⟩
  have htied : [a, b].filter (tied a) = [a, b] := by
    rw [List.filter_eq_self]
    intro y hy
    rcases List.mem_pair.1 hy with rfl | rfl
    · exact tied_iff.2 ⟨LawfulScore.irrefl _, LawfulScore.irrefl _⟩
    · exact tied_iff.2 ⟨hlower, hlower'⟩
  have hsub := hab.filter (tied a)
  rw [htied, filter_tied_ranking] at hsub
  exact List.pairwise_iff_forall_sublist.1 (pairwise_zipIdx scores)
    (hsub.trans List.filter_sublist)

/-! ## The first positions -/

/-- What a ranking lists first comes before all that it leaves out. -/
theorem before_of_mem_take {i j : Nat} (hi : i ∈ (order scores).take k) (hj : j < scores.length)
    (hout : j ∉ (order scores).take k) : Before scores i j := by
  have hpair := pairwise_order scores
  rw [← List.take_append_drop k (order scores), List.pairwise_append] at hpair
  refine hpair.2.2 i hi j ?_
  have hmem := mem_order_iff.2 hj
  rw [← List.take_append_drop k (order scores), List.mem_append] at hmem
  exact hmem.resolve_left hout

/-- Only the first positions of a ranking are in its order and before all others. -/
theorem eq_take_order (hlen : is.length = k) (hrange : ∀ i ∈ is, i < scores.length)
    (hsorted : is.Pairwise (Before scores))
    (hleft : ∀ i ∈ is, ∀ j < scores.length, j ∉ is → Before scores i j) :
    is = (order scores).take k := by
  have hnodup : is.Nodup := hsorted.imp fun {i j} hij hne => by
    subst hne
    exact hij.asymm hij
  have hmem {i : Nat} : i ∈ (order scores).filter (· ∉ is) ↔ i < scores.length ∧ i ∉ is := by
    rw [List.mem_filter, mem_order_iff, decide_eq_true_iff]
  have hperm : (is ++ (order scores).filter (· ∉ is)).Perm (order scores) := by
    refine (List.perm_ext_iff_of_nodup (List.nodup_append.2 ⟨hnodup, ?_, ?_⟩)
      (nodup_order scores)).2 fun i => ?_
    · exact (nodup_order scores).filter _
    · rintro i hi _ hj rfl
      exact (hmem.1 hj).2 hi
    · rw [List.mem_append, hmem, mem_order_iff]
      by_cases hi : i ∈ is
      · exact iff_of_true (Or.inl hi) (hrange i hi)
      · simp [hi]
  have hpair : (is ++ (order scores).filter (· ∉ is)).Pairwise (Before scores) :=
    List.pairwise_append.2 ⟨hsorted, (pairwise_order scores).filter _,
      fun i hi j hj => hleft i hi j (hmem.1 hj).1 (hmem.1 hj).2⟩
  rw [← List.Perm.eq_of_pairwise (fun i j _ _ hij hji => absurd hji hij.asymm) hpair
    (pairwise_order scores) hperm, List.take_left' hlen]

/-- Scores that compare alike are ranked alike. -/
theorem order_congr {scores' : List τ} (hlen : scores.length = scores'.length)
    (h : ∀ (i j : Nat) (s t : σ) (s' t' : τ), scores[i]? = some s → scores[j]? = some t →
      scores'[i]? = some s' → scores'[j]? = some t' → Score.lower s t = Score.lower s' t') :
    order scores = order scores' := by
  have hbefore {i j : Nat} (hij : Before scores i j) : Before scores' i j := by
    obtain ⟨s, t, hs, ht, hlower, hlt⟩ := hij
    have hs' := List.getElem?_eq_getElem (hlen ▸ (List.getElem?_eq_some_iff.1 hs).1)
    have ht' := List.getElem?_eq_getElem (hlen ▸ (List.getElem?_eq_some_iff.1 ht).1)
    refine ⟨_, _, hs', ht', ?_, ?_⟩
    · rw [← h i j s t _ _ hs ht hs' ht']
      exact hlower
    · rw [← h j i t s _ _ ht hs ht' hs']
      exact hlt
  have hperm : (order scores).Perm (order scores') :=
    (order_perm scores).trans (hlen ▸ (order_perm scores').symm)
  exact List.Perm.eq_of_pairwise (fun i j _ _ hij hji => absurd hji hij.asymm)
    ((pairwise_order scores).imp hbefore) (pairwise_order scores') hperm

end TreeCorpus.Ranking
