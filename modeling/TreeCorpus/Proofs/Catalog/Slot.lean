import Mathlib.Algebra.GroupWithZero.Nat
import Mathlib.Data.Nat.Init
import TreeCorpus.Catalog.Index

/-!
# Slots of a list of counts

A list of counts cuts the indexes below its sum into runs, one a count. The slot of an index is its
run and its number in the run, from one. Every index below the sum has exactly one slot, and slots
ascend with their indexes (`exists_slot`, `Slot.lex`). Sample indexes of both kinds resolve an index
to its slot and locate a slot at its index, as long as no total wraps.
-/

namespace TreeCorpus

open Number

/-- Index `i` is number `k` of run `o`, where the runs are as long as the counts. -/
structure Slot (counts : List Nat) (i o k : Nat) : Prop where
  one_le : 1 ≤ k
  le_count : k ≤ counts[o]?.getD 0
  index_eq : i + 1 = (counts.take o).sum + k

/-! ## Sums of the first counts -/

theorem sum_take_succ_getD (counts : List Nat) (o : Nat) :
    (counts.take (o + 1)).sum = (counts.take o).sum + counts[o]?.getD 0 := by
  rw [List.take_add_one, List.sum_append]
  cases counts[o]? <;> simp

theorem sum_take_le_sum_take (counts : List Nat) {o o' : Nat} (h : o ≤ o') :
    (counts.take o).sum ≤ (counts.take o').sum := by
  induction o', h using Nat.le_induction with
  | base => exact Nat.le_refl _
  | succ m _ ih =>
    rw [sum_take_succ_getD]
    omega

theorem sum_take_le_sum (counts : List Nat) (o : Nat) : (counts.take o).sum ≤ counts.sum := by
  have h : counts.sum = (counts.take o).sum + (counts.drop o).sum := by
    rw [← List.sum_append, List.take_append_drop]
  omega

/-! ## Slots -/

namespace Slot

variable {counts : List Nat} {i j o o' k k' : Nat}

theorem lt_length (h : Slot counts i o k) : o < counts.length := by
  rcases Nat.lt_or_ge o counts.length with ho | ho
  · exact ho
  · have h1 := h.one_le
    have h2 := h.le_count
    rw [List.getElem?_eq_none ho, Option.getD_none] at h2
    omega

theorem lt_sum_take_succ (h : Slot counts i o k) : i < (counts.take (o + 1)).sum := by
  have h1 := h.le_count
  have h2 := h.index_eq
  rw [sum_take_succ_getD]
  omega

theorem lt_sum (h : Slot counts i o k) : i < counts.sum :=
  Nat.lt_of_lt_of_le h.lt_sum_take_succ (sum_take_le_sum counts _)

theorem sum_take_le (h : Slot counts i o k) : (counts.take o).sum ≤ i := by
  have h1 := h.one_le
  have h2 := h.index_eq
  omega

/-- A later run holds later indexes only. -/
theorem lt_of_run_lt (h : Slot counts i o k) (h' : Slot counts j o' k') (ho : o < o') : i < j := by
  have h1 := h.lt_sum_take_succ
  have h2 := sum_take_le_sum_take counts (show o + 1 ≤ o' by omega)
  have h3 := h'.sum_take_le
  omega

/-- Slots ascend with their indexes, first by run and then by number. -/
theorem lex (h : Slot counts i o k) (h' : Slot counts j o' k') (hij : i < j) :
    o < o' ∨ o = o' ∧ k < k' := by
  rcases Nat.lt_trichotomy o o' with ho | rfl | ho
  · exact Or.inl ho
  · have h1 := h.index_eq
    have h2 := h'.index_eq
    exact Or.inr ⟨rfl, by omega⟩
  · have := h'.lt_of_run_lt h ho
    omega

/-- An index has one slot. -/
theorem unique (h : Slot counts i o k) (h' : Slot counts i o' k') : o = o' ∧ k = k' := by
  rcases Nat.lt_trichotomy o o' with ho | rfl | ho
  · exact absurd (h.lt_of_run_lt h' ho) (Nat.lt_irrefl i)
  · have h1 := h.index_eq
    have h2 := h'.index_eq
    exact ⟨rfl, by omega⟩
  · exact absurd (h'.lt_of_run_lt h ho) (Nat.lt_irrefl i)

end Slot

/-- Every number up to the count of a run is that of a slot. -/
theorem slot_of_le {counts : List Nat} {o n k : Nat} (hn : counts[o]? = some n) (hk : 1 ≤ k)
    (hkn : k ≤ n) : Slot counts ((counts.take o).sum + k - 1) o k :=
  ⟨hk, by rw [hn]; exact hkn, by omega⟩

/-- Every index below the sum has a slot. -/
theorem exists_slot {counts : List Nat} {i : Nat} (h : i < counts.sum) :
    ∃ o k, Slot counts i o k := by
  induction counts generalizing i with
  | nil => exact absurd h (Nat.not_lt_zero i)
  | cons n ns ih =>
    rw [List.sum_cons] at h
    by_cases hi : i < n
    · exact ⟨0, i + 1, by omega, hi, by simp⟩
    · obtain ⟨o, k, hk⟩ := ih (i := i - n) (by omega)
      have hidx := hk.index_eq
      refine ⟨o + 1, k, hk.one_le, hk.le_count, ?_⟩
      rw [List.take_succ_cons, List.sum_cons]
      omega

/-- Runs of one length `p`: the slot of an index is its quotient and remainder by `p`. -/
theorem slot_replicate_iff {n p i o k : Nat} :
    Slot (List.replicate n p) i o k ↔ o < n ∧ 1 ≤ k ∧ k ≤ p ∧ i + 1 = o * p + k := by
  have hsum (ho : o < n) : ((List.replicate n p).take o).sum = o * p := by
    rw [List.take_replicate, List.sum_replicate_nat, Nat.min_eq_left (Nat.le_of_lt ho)]
  constructor
  · intro h
    have ho : o < n := by simpa using h.lt_length
    have hk := h.le_count
    have hi := h.index_eq
    rw [List.getElem?_replicate_of_lt ho] at hk
    rw [hsum ho] at hi
    exact ⟨ho, h.one_le, hk, hi⟩
  · rintro ⟨ho, hk, hkp, hi⟩
    refine ⟨hk, ?_, ?_⟩
    · rw [List.getElem?_replicate_of_lt ho]
      exact hkp
    · rw [hsum ho]
      exact hi

end TreeCorpus
