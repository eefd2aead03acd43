import TreeCorpus.Proofs.Number.Value
import TreeCorpus.Proofs.Ranking.Order

/-!
# The positions of the highest scores

Asked for the positions of the `k` highest scores, the ranking fails for a `k` that is zero or
larger than the list, or else for the first score that is not finite (`topScores_eq_error_iff`).
Otherwise it lists the positions before all others, in the order in which higher scores come first
and equal ones by position, and no other list does (`topK_exact`). Hence a shorter list is the
beginning of a longer one.
-/

namespace TreeCorpus.Ranking

open Number

/-! ## When there are none -/

section Failures

variable {σ : Type} [Score σ] {scores : List σ} {k : Nat} {e : Error}

/-- The score at `i` is the first one that is not finite. -/
def FirstUnfit (scores : List σ) (i : Nat) : Prop :=
  (∃ s, scores[i]? = some s ∧ Score.isFinite s = false) ∧
    ∀ j < i, ∃ s, scores[j]? = some s ∧ Score.isFinite s = true

theorem findIdx?_eq_some_iff_firstUnfit {i : Nat} :
    scores.findIdx? (!Score.isFinite ·) = some i ↔ FirstUnfit scores i := by
  rw [List.findIdx?_eq_some_iff_getElem]
  constructor
  · rintro ⟨hi, hunfit, hbefore⟩
    rw [Bool.not_eq_true'] at hunfit
    refine ⟨⟨_, List.getElem?_eq_getElem hi, hunfit⟩, fun j hj => ?_⟩
    refine ⟨_, List.getElem?_eq_getElem (hj.trans hi), ?_⟩
    simpa using hbefore j hj
  · rintro ⟨⟨s, hs, hunfit⟩, hbefore⟩
    obtain ⟨hi, rfl⟩ := List.getElem?_eq_some_iff.1 hs
    refine ⟨hi, by rw [hunfit]; rfl, fun j hj => ?_⟩
    obtain ⟨t, ht, hfit⟩ := hbefore j hj
    obtain ⟨_, rfl⟩ := List.getElem?_eq_some_iff.1 ht
    simp [hfit]

theorem topScores_eq_error_iff :
    topScores scores k = .error e ↔
      ((k = 0 ∨ scores.length < k) ∧ e = .invalidTopK k scores.length) ∨
        (0 < k ∧ k ≤ scores.length ∧ ∃ i, FirstUnfit scores i ∧ e = .invalidScore i) := by
  unfold topScores
  by_cases hk : k = 0 ∨ scores.length < k
  · rw [if_pos hk, Except.error.injEq, eq_comm, and_iff_right hk, or_iff_left]
    rintro ⟨hpos, hle, -⟩
    omega
  · rw [if_neg hk, and_iff_right (Nat.pos_of_ne_zero (not_or.1 hk).1),
      and_iff_right (Nat.le_of_not_lt (not_or.1 hk).2), or_iff_right fun h => hk h.1]
    simp only [← findIdx?_eq_some_iff_firstUnfit]
    cases scores.findIdx? (!Score.isFinite ·) <;> simp [eq_comm]

theorem topK_eq_ok_iff {is : List Nat} :
    topK scores k = .ok is ↔
      0 < k ∧ k ≤ scores.length ∧ (∀ s ∈ scores, Score.isFinite s = true) ∧
        is = (order scores).take k := by
  unfold topK order
  simp only [map_eq_ok_iff, topScores_eq_ok_iff]
  constructor
  · rintro ⟨es, ⟨hpos, hle, hfinite, rfl⟩, rfl⟩
    exact ⟨hpos, hle, hfinite, List.map_take ..⟩
  · rintro ⟨hpos, hle, hfinite, rfl⟩
    exact ⟨_, ⟨hpos, hle, hfinite, rfl⟩, List.map_take ..⟩

/-- A shorter list of positions is the beginning of a longer one. -/
theorem topK_eq_map_take {k' : Nat} (hpos : 0 < k) (hk : k ≤ k') (hle : k' ≤ scores.length) :
    topK scores k = (topK scores k').map (List.take k) := by
  cases h : topK scores k' with
  | error e =>
    refine map_eq_error_iff.2 (topScores_eq_error_iff.2 ?_)
    rcases topScores_eq_error_iff.1 (map_eq_error_iff.1 h) with ⟨hk', -⟩ | ⟨-, -, hfirst⟩
    · omega
    · exact Or.inr ⟨hpos, hk.trans hle, hfirst⟩
  | ok is =>
    obtain ⟨-, -, hfinite, rfl⟩ := topK_eq_ok_iff.1 h
    refine topK_eq_ok_iff.2 ⟨hpos, hk.trans hle, hfinite, ?_⟩
    rw [List.take_take, Nat.min_eq_left hk]

end Failures

/-! ## The positions -/

variable {scores : List Single} {k i j : Nat} {is : List Nat}

/-- The score at `i` comes before the one at `j`: it is higher, or it is equal and stands at a lower
position. -/
def Outranks (scores : List Single) (i j : Nat) : Prop :=
  ∃ s t, scores[i]? = some s ∧ scores[j]? = some t ∧
    (t.value ℚ < s.value ℚ ∨ t.value ℚ = s.value ℚ ∧ i < j)

/-- The `k` positions that outrank all others, each outranking those behind it. -/
structure Tops (scores : List Single) (k : Nat) (is : List Nat) : Prop where
  length_eq : is.length = k
  nodup : is.Nodup
  lt_length : ∀ i ∈ is, i < scores.length
  sorted : is.Pairwise (Outranks scores)
  outranks : ∀ i ∈ is, ∀ j < scores.length, j ∉ is → Outranks scores i j

theorem before_iff_outranks (h : ∀ s ∈ scores, s.isFinite = true) :
    Before scores i j ↔ Outranks scores i j := by
  have hlower {s t : Single} (hs : s ∈ scores) (ht : t ∈ scores) :
      Score.lower s t = false ↔ t.value ℚ ≤ s.value ℚ := by
    rw [← Bool.not_eq_true, ← not_lt]
    exact not_congr (less_iff_value_lt (h s hs) (h t ht))
  unfold Before Outranks
  refine exists_congr fun s => exists_congr fun t => and_congr_right fun hs =>
    and_congr_right fun ht => ?_
  have hs := List.mem_of_getElem? hs
  have ht := List.mem_of_getElem? ht
  rw [hlower hs ht, hlower ht hs]
  constructor
  · rintro ⟨hle, hlt⟩
    rcases hle.lt_or_eq with hlt' | heq
    · exact Or.inl hlt'
    · exact Or.inr ⟨heq, hlt heq.ge⟩
  · rintro (hlt | ⟨heq, hlt⟩)
    · exact ⟨hlt.le, fun hle => absurd hlt hle.not_gt⟩
    · exact ⟨heq.le, fun _ => hlt⟩

/-- The first positions of a ranking outrank the others, and no other positions do. -/
theorem eq_take_order_iff_tops (hle : k ≤ scores.length) (h : ∀ s ∈ scores, s.isFinite = true) :
    is = (order scores).take k ↔ Tops scores k is := by
  constructor
  · rintro rfl
    refine ⟨?_, (nodup_order scores).sublist (List.take_sublist ..), fun i hi => ?_, ?_,
      fun i hi j hj hout => (before_iff_outranks h).1 (before_of_mem_take hi hj hout)⟩
    · rw [List.length_take, length_order, Nat.min_eq_left hle]
    · exact mem_order_iff.1 (List.mem_of_mem_take hi)
    · exact ((pairwise_order scores).sublist (List.take_sublist ..)).imp (before_iff_outranks h).1
  · intro htops
    exact eq_take_order htops.length_eq htops.lt_length
      (htops.sorted.imp (before_iff_outranks h).2)
      fun i hi j hj hout => (before_iff_outranks h).2 (htops.outranks i hi j hj hout)

/-- Which positions are listed, and when and why there are none. Zeros with different signs are
equal. -/
theorem topK_exact (scores : List Single) (k : Nat) :
    (∀ e, topK scores k = .error e ↔
      ((k = 0 ∨ scores.length < k) ∧ e = .invalidTopK k scores.length) ∨
        (0 < k ∧ k ≤ scores.length ∧ ∃ i, FirstUnfit scores i ∧ e = .invalidScore i)) ∧
    ((∃ is, topK scores k = .ok is) ↔
      0 < k ∧ k ≤ scores.length ∧ ∀ s ∈ scores, s.isFinite = true) ∧
    (∀ is, topK scores k = .ok is ↔
      0 < k ∧ k ≤ scores.length ∧ (∀ s ∈ scores, s.isFinite = true) ∧ Tops scores k is) ∧
    (∀ k', 0 < k → k ≤ k' → k' ≤ scores.length →
      topK scores k = (topK scores k').map (List.take k)) ∧
    ∀ n n' : Bool, (Binary.zero n : Single).value ℚ = (Binary.zero n' : Single).value ℚ := by
  refine ⟨fun e => map_eq_error_iff.trans topScores_eq_error_iff, ?_, fun is => ?_,
    fun k' => topK_eq_map_take, fun n n' => (value_zero n).trans (value_zero n').symm⟩
  · simp only [topK_eq_ok_iff]
    constructor
    · rintro ⟨is, hpos, hle, hfinite, -⟩
      exact ⟨hpos, hle, hfinite⟩
    · rintro ⟨hpos, hle, hfinite⟩
      exact ⟨_, hpos, hle, hfinite, rfl⟩
  · rw [topK_eq_ok_iff]
    refine and_congr_right fun _ => and_congr_right fun hle => and_congr_right fun hfinite => ?_
    exact eq_take_order_iff_tops hle hfinite

example :
    topK [(.zero true : Single), .zero false, .ofNat 1, .zero true] 3 = .ok [2, 0, 1] := by
  cbv

end TreeCorpus.Ranking
