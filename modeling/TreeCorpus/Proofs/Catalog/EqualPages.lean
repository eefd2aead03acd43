import TreeCorpus.Proofs.Catalog.Numbering

/-!
# Categories of one size

Two indexes that resolve and locate by the slots of the same counts answer alike
(`SlotLaws.agrees`). If every category counts as many solutions as a page holds, scanned counts and
pages are such indexes, with repeated names or without; if one category counts otherwise, they tell
it apart (`equal_pages_exact`).
-/

namespace TreeCorpus

open Number

namespace SampleIndex

variable {x y : SampleIndex} {c : Catalog} {counts counts' : List Nat}

/-- The indexes have one total and give the same answer, or the same error, to every question. -/
structure Agrees (x y : SampleIndex) : Prop where
  total_eq : x.total = y.total
  resolve_eq : ∀ i, x.resolve i = y.resolve i
  locate_eq : ∀ name k, x.locate name k = y.locate name k

namespace SlotLaws

/-- The answers of an index are decided by its slots. -/
theorem agrees (h : x.SlotLaws c counts) (h' : y.SlotLaws c counts) : x.Agrees y where
  total_eq := h.total_eq.trans h'.total_eq.symm
  resolve_eq i := by
    by_cases hi : i < counts.sum
    · obtain ⟨o, k, hslot⟩ := exists_slot hi
      obtain ⟨name, hname⟩ := h.exists_name hslot
      rw [h.resolve_slot hslot hname, h'.resolve_slot hslot hname]
    · rw [h.resolve_error (Nat.not_lt.1 hi), h'.resolve_error (Nat.not_lt.1 hi)]
  locate_eq name k := by
    cases hfind : c.find? name with
    | none => rw [h.locate_unknown hfind, h'.locate_unknown hfind]
    | some category =>
      obtain ⟨rfl, ho, -⟩ := Catalog.find?_eq_some_iff.1 hfind
      obtain ⟨n, hn⟩ := h.exists_count ho
      by_cases hk : 1 ≤ k ∧ k ≤ n
      · have hslot := slot_of_le hn hk.1 hk.2
        rw [h.locate_slot hfind hslot, h'.locate_slot hfind hslot]
      · rw [h.locate_error hfind hn hk, h'.locate_error hfind hn hk]

/-- An index over counts does not resolve to a number above the count of the category. -/
theorem le_count_of_resolve (h : x.SlotLaws c counts) {i o k n : Nat} {name : String}
    (hi : x.resolve i = .ok (c.solution ⟨name, o⟩ k)) (hn : counts[o]? = some n) : k ≤ n := by
  obtain ⟨o', k', name', hslot, -, he⟩ := h.resolve_eq_ok_iff.1 hi
  obtain ⟨hcategory, rfl, -⟩ := Solution.mk.inj he
  obtain ⟨-, rfl⟩ := Category.mk.inj hcategory
  have hle := hslot.le_count
  rwa [hn] at hle

/-- Indexes that resolve alike count alike. -/
theorem le_of_resolve_eq (h : x.SlotLaws c counts) (h' : y.SlotLaws c counts')
    (hresolve : ∀ i, x.resolve i = y.resolve i) {o n n' : Nat} (hn : counts[o]? = some n)
    (hn' : counts'[o]? = some n') : n ≤ n' := by
  rcases Nat.eq_zero_or_pos n with rfl | hpos
  · exact Nat.zero_le n'
  · -- the last solution of the category under the first index is one under the second
    have hslot := slot_of_le hn hpos (Nat.le_refl n)
    obtain ⟨name, hname⟩ := h.exists_name hslot
    have hlast := h.resolve_slot hslot hname
    rw [hresolve] at hlast
    exact h'.le_count_of_resolve hlast hn'

theorem eq_of_agrees (h : x.SlotLaws c counts) (h' : y.SlotLaws c counts') (ha : x.Agrees y) :
    counts = counts' := by
  apply List.ext_getElem (h.length_eq.trans h'.length_eq.symm)
  intro o ho ho'
  have hn := List.getElem?_eq_getElem ho
  have hn' := List.getElem?_eq_getElem ho'
  exact Nat.le_antisymm (le_of_resolve_eq h h' ha.resolve_eq hn hn')
    (le_of_resolve_eq h' h (fun i => (ha.resolve_eq i).symm) hn' hn)

end SlotLaws

end SampleIndex

/-- If every category counts as many solutions as a page holds, the scanned index and that of pages
give the same answers, errors included; as long as the pages make a size, only then. -/
theorem equal_pages_exact (c : Catalog) {p : Nat} (hp : 1 ≤ p) (hsum : c.counts.sum < sizeLimit) :
    let scanned := SampleIndex.scanned (ScannedIndex.ofCatalog c)
    let pages := SampleIndex.fixedPage (FixedPageIndex.ofCatalog c p)
    ((∀ n ∈ c.counts, n = p) → scanned.Agrees pages) ∧
      (c.size * p < sizeLimit → scanned.Agrees pages → ∀ n ∈ c.counts, n = p) := by
  intro scanned pages
  have hx : FixedPageIndex.ofCatalog c p = ⟨c, p⟩ := by
    rw [FixedPageIndex.ofCatalog, Nat.max_eq_left hp]
  have hscanned : scanned.SlotLaws c c.counts := ScannedIndex.slotLaws (x := .ofCatalog c) rfl hsum
  have hpages (h : (List.replicate c.size p).sum < sizeLimit) :
      pages.SlotLaws c (List.replicate c.size p) := by
    show (SampleIndex.fixedPage (FixedPageIndex.ofCatalog c p)).SlotLaws _ _
    rw [hx]
    exact FixedPageIndex.slotLaws (x := ⟨c, p⟩) h
  constructor
  · intro hcounts
    have heq : c.counts = List.replicate c.size p :=
      List.eq_replicate_iff.2 ⟨c.length_counts, hcounts⟩
    rw [heq] at hscanned hsum
    exact hscanned.agrees (hpages hsum)
  · intro hsize hagrees n hn
    have heq := hscanned.eq_of_agrees (hpages (by rwa [List.sum_replicate_nat])) hagrees
    rw [heq] at hn
    exact List.eq_of_mem_replicate hn

/-- A name that is listed twice makes no difference. -/
theorem equal_pages_exact_repeated :
    let c := Catalog.ofCounts "/d" "edges" [("a", 2), ("b", 2), ("a", 2)]
    c.counts.sum < sizeLimit ∧ (∀ n ∈ c.counts, n = 2) ∧
      (SampleIndex.scanned (ScannedIndex.ofCatalog c)).Agrees
        (.fixedPage (FixedPageIndex.ofCatalog c 2)) ∧
      ¬ (SampleIndex.scanned (ScannedIndex.ofCatalog c)).Agrees
        (.fixedPage (FixedPageIndex.ofCatalog c 3)) := by
  intro c
  have hsum : c.counts.sum < sizeLimit := by decide
  have hcounts : ∀ n ∈ c.counts, n = 2 := by decide
  refine ⟨hsum, hcounts, (equal_pages_exact c (by decide) hsum).1 hcounts, fun h => ?_⟩
  have hthree := (equal_pages_exact c (by decide) hsum).2 (by decide) h
  exact absurd (hthree 2 (by decide)) (by decide)

end TreeCorpus
