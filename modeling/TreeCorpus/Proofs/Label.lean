import Mathlib.Data.List.Nodup
import TreeCorpus.Label

/-!
# One-hot labels

A label is one-hot at an ordinal when it holds a one there and zeros elsewhere (`IsOneHot`).
Encoding gives exactly the one-hot label of its length (`encode_eq_ok_iff`), and exactly the one-hot
labels decode, each to its ordinal (`decode_eq_some_iff`). So encoding and decoding are inverse to
each other on the labels of each length (`decode_inverts_encode`).
-/

namespace TreeCorpus.Label

variable {label : List UInt8} {ordinal count : Nat}

/-- A one at the ordinal and zeros elsewhere. -/
structure IsOneHot (label : List UInt8) (ordinal : Nat) : Prop where
  hot : label[ordinal]? = some 1
  cold : ∀ j v, label[j]? = some v → j ≠ ordinal → v = 0

/-- The entries of a one-hot label that are not zero are its one. -/
theorem IsOneHot.filter_zipIdx (h : IsOneHot label ordinal) :
    label.zipIdx.filter (·.1 ≠ 0) = [(1, ordinal)] := by
  have hnodup : label.zipIdx.Nodup := by
    apply List.Nodup.of_map Prod.snd
    rw [List.zipIdx_map_snd]
    exact List.nodup_range'
  refine List.perm_singleton.1 ((List.perm_ext_iff_of_nodup (hnodup.filter _)
    (List.nodup_singleton _)).2 ?_)
  rintro ⟨v, j⟩
  simp only [List.mem_filter, List.mem_zipIdx_iff_getElem?, List.mem_singleton, Prod.mk.injEq,
    decide_eq_true_eq]
  constructor
  · rintro ⟨hj, hv⟩
    by_cases he : j = ordinal
    · subst he
      exact ⟨Option.some.inj (hj.symm.trans h.hot), rfl⟩
    · exact absurd (h.cold j v hj he) hv
  · rintro ⟨rfl, rfl⟩
    exact ⟨h.hot, by decide⟩

/-- A one-hot label decodes to its ordinal. -/
theorem IsOneHot.decode_eq (h : IsOneHot label ordinal) : decode label = some ordinal := by
  unfold decode
  rw [h.filter_zipIdx]
  rfl

/-- A label whose only entry that is not zero is a one is one-hot there. -/
theorem isOneHot_of_filter_zipIdx (h : label.zipIdx.filter (·.1 ≠ 0) = [(1, ordinal)]) :
    IsOneHot label ordinal := by
  have hmem {v : UInt8} {j : Nat} (hv : v ≠ 0) :
      label[j]? = some v ↔ v = 1 ∧ j = ordinal := by
    have hiff : (v, j) ∈ label.zipIdx.filter (·.1 ≠ 0) ↔ (v, j) ∈ [((1 : UInt8), ordinal)] := by
      rw [h]
    simpa [List.mem_zipIdx_iff_getElem?, hv] using hiff
  refine ⟨(hmem (by decide)).2 ⟨rfl, rfl⟩, fun j v hj hne => ?_⟩
  by_contra hv
  exact hne ((hmem hv).1 hj).2

/-- Exactly the one-hot labels decode, each to its ordinal. -/
theorem decode_eq_some_iff : decode label = some ordinal ↔ IsOneHot label ordinal := by
  refine ⟨fun h => isOneHot_of_filter_zipIdx ?_, IsOneHot.decode_eq⟩
  unfold decode at h
  split at h
  · rename_i v i hfilter
    split at h
    · rename_i hv
      rw [hfilter, hv, Option.some.inj h]
    · exact nomatch h
  · exact nomatch h

theorem IsOneHot.lt_length (h : IsOneHot label ordinal) : ordinal < label.length :=
  (List.getElem?_eq_some_iff.1 h.hot).1

/-- There is one one-hot label of each length at an ordinal. -/
theorem IsOneHot.unique {label' : List UInt8} (h : IsOneHot label ordinal)
    (h' : IsOneHot label' ordinal) (hlen : label.length = label'.length) : label = label' := by
  refine List.ext_getElem hlen fun j hj hj' => ?_
  by_cases he : j = ordinal
  · subst he
    have hhot := h.hot.trans h'.hot.symm
    rw [List.getElem?_eq_getElem hj, List.getElem?_eq_getElem hj'] at hhot
    exact Option.some.inj hhot
  · rw [h.cold j _ (List.getElem?_eq_getElem hj) he, h'.cold j _ (List.getElem?_eq_getElem hj') he]

/-- Encoding gives the label of the wanted length that is one-hot at the ordinal. -/
theorem of_encode_eq_ok (h : encode ordinal count = .ok label) :
    label.length = count ∧ IsOneHot label ordinal := by
  unfold encode at h
  split at h
  · rename_i hlt
    obtain rfl := Except.ok.inj h
    have hget (j : Nat) (hj : j < count) :
        ((List.range count).map fun i => if i = ordinal then (1 : UInt8) else 0)[j]? =
          some (if j = ordinal then 1 else 0) := by
      rw [List.getElem?_map, List.getElem?_range hj]
      rfl
    refine ⟨by rw [List.length_map, List.length_range], ?_, fun j v hj hne => ?_⟩
    · rw [hget ordinal hlt, if_pos rfl]
    · have hjlt := (List.getElem?_eq_some_iff.1 hj).1
      rw [List.length_map, List.length_range] at hjlt
      rw [hget j hjlt, if_neg hne] at hj
      exact (Option.some.inj hj).symm
  · exact absurd h (by simp)

/-- Only the ordinals below the count encode. -/
theorem exists_encode_iff : (∃ label, encode ordinal count = .ok label) ↔ ordinal < count := by
  unfold encode
  split
  · exact iff_of_true ⟨_, rfl⟩ ‹_›
  · exact iff_of_false (fun ⟨_, h⟩ => nomatch h) ‹_›

theorem encode_eq_error_iff {e : Error} :
    encode ordinal count = .error e ↔ count ≤ ordinal ∧ e = .invalidOrdinal ordinal count := by
  unfold encode
  split
  · exact iff_of_false (fun h => nomatch h) (by omega)
  · rw [Except.error.injEq, eq_comm]
    exact (and_iff_right (by omega)).symm

/-- Encoding gives the one-hot label of its length. -/
theorem encode_eq_ok_iff :
    encode ordinal count = .ok label ↔ label.length = count ∧ IsOneHot label ordinal := by
  refine ⟨of_encode_eq_ok, fun ⟨hlen, h⟩ => ?_⟩
  obtain ⟨label', h'⟩ := exists_encode_iff.2 (hlen ▸ h.lt_length)
  obtain ⟨hlen', hhot'⟩ := of_encode_eq_ok h'
  rw [h', h.unique hhot' (hlen.trans hlen'.symm)]

/-- An ordinal encodes exactly if it is below the count, and its label decodes to it. A label
decodes to an ordinal exactly if it is what the ordinal encodes to at its length, and no other label
decodes. -/
theorem decode_inverts_encode :
    (∀ ordinal count, (∃ label, encode ordinal count = .ok label) ↔ ordinal < count) ∧
    (∀ ordinal count e, encode ordinal count = .error e ↔
      count ≤ ordinal ∧ e = .invalidOrdinal ordinal count) ∧
    (∀ ordinal count label, encode ordinal count = .ok label ↔
      label.length = count ∧ decode label = some ordinal) ∧
    (∀ label i, decode label = some i ↔ i < label.length ∧ encode i label.length = .ok label) ∧
    ∀ label, decode label = none ↔ ∀ i < label.length, encode i label.length ≠ .ok label := by
  have hdecode (label : List UInt8) (i : Nat) :
      decode label = some i ↔ i < label.length ∧ encode i label.length = .ok label := by
    rw [decode_eq_some_iff, encode_eq_ok_iff]
    exact ⟨fun h => ⟨h.lt_length, rfl, h⟩, fun h => h.2.2⟩
  refine ⟨fun _ _ => exists_encode_iff, fun _ _ _ => encode_eq_error_iff, fun _ _ _ => ?_, hdecode,
    fun label => ?_⟩
  · rw [encode_eq_ok_iff, decode_eq_some_iff]
  · rw [Option.eq_none_iff_forall_ne_some]
    exact forall_congr' fun i => by rw [Ne, hdecode, not_and]

end TreeCorpus.Label
