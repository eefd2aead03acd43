import TreeCorpus.Proofs.Catalog.Slot

/-!
# Numbering the solutions of a catalog

A sample index over counts resolves each index to its slot and locates each slot at its index
(`SlotLaws`), whether the counts were scanned or are pages of one size. Over a catalog without
repeated names resolving and locating are therefore inverse to each other, and indexes ascend with
ordinals and numbers (`isNumbering`).
-/

namespace TreeCorpus

open Number

/-! ## Categories of a catalog -/

namespace Catalog

variable {c : Catalog} {name : String} {o : Nat}

theorem category?_eq_some (h : c.names[o]? = some name) : c.category? o = some ⟨name, o⟩ := by
  unfold names at h
  rw [List.getElem?_map, Option.map_eq_some_iff] at h
  obtain ⟨holding, hh, rfl⟩ := h
  unfold category?
  rw [hh, Option.map_some]

/-- A name is found at its first place. -/
theorem find?_eq_some_iff {d : Category} :
    c.find? name = some d ↔
      d.name = name ∧ c.names[d.ordinal]? = some name ∧
        ∀ j < d.ordinal, c.names[j]? ≠ some name := by
  unfold find?
  rw [Option.map_eq_some_iff]
  constructor
  · rintro ⟨o, ho, rfl⟩
    obtain ⟨hlt, heq, hne⟩ := List.findIdx?_eq_some_iff_getElem.1 ho
    refine ⟨rfl, ?_, fun j hj e => ?_⟩
    · rw [List.getElem?_eq_getElem hlt, eq_of_beq heq]
    · obtain ⟨_, he⟩ := List.getElem?_eq_some_iff.1 e
      exact hne j hj (beq_iff_eq.2 he)
  · rintro ⟨hd, ho, hne⟩
    obtain ⟨hlt, heq⟩ := List.getElem?_eq_some_iff.1 ho
    refine ⟨d.ordinal, List.findIdx?_eq_some_iff_getElem.2 ⟨hlt, beq_iff_eq.2 heq, ?_⟩, ?_⟩
    · intro j hj e
      exact hne j hj (List.getElem?_eq_some_iff.2 ⟨by omega, eq_of_beq e⟩)
    · rw [← hd]

theorem find?_eq_none_iff : c.find? name = none ↔ name ∉ c.names := by
  unfold find?
  rw [Option.map_eq_none_iff, List.findIdx?_eq_none_iff]
  constructor
  · intro h hm
    simpa using h name hm
  · intro h x hx
    exact beq_eq_false_iff_ne.2 fun e => h (e ▸ hx)

/-- Without repeated names a name is found at its only place. -/
theorem find?_eq_some_of_nodup (hn : c.names.Nodup) (h : c.names[o]? = some name) :
    c.find? name = some ⟨name, o⟩ := by
  refine find?_eq_some_iff.2 ⟨rfl, h, fun j hj e => ?_⟩
  have hlt := (List.getElem?_eq_some_iff.1 h).1
  exact Nat.ne_of_gt hj ((List.getElem?_inj hlt hn).1 (h.trans e.symm))

end Catalog

/-! ## Resolving and locating by slots -/

/-- The index resolves and locates by the slots of the counts, one a category of the catalog. -/
structure SampleIndex.SlotLaws (x : SampleIndex) (c : Catalog) (counts : List Nat) : Prop where
  length_eq : counts.length = c.size
  total_eq : x.total = counts.sum
  resolve_slot : ∀ {i o k name}, Slot counts i o k → c.names[o]? = some name →
    x.resolve i = .ok (c.solution ⟨name, o⟩ k)
  resolve_error : ∀ {i}, counts.sum ≤ i → x.resolve i = .error (.indexOutOfRange i counts.sum)
  locate_slot : ∀ {i o k name}, c.find? name = some ⟨name, o⟩ → Slot counts i o k →
    x.locate name k = .ok i
  locate_error : ∀ {o k n name}, c.find? name = some ⟨name, o⟩ → counts[o]? = some n →
    ¬ (1 ≤ k ∧ k ≤ n) → x.locate name k = .error (.indexOutOfRange k n)
  locate_unknown : ∀ {k name}, c.find? name = none → x.locate name k = .error (.unknownCategory name)

/-! ### Pages of one size -/

namespace FixedPageIndex

/-- One page for each category. -/
def counts (x : FixedPageIndex) : List Nat := List.replicate x.catalog.size x.pageSize

theorem sum_counts (x : FixedPageIndex) : x.counts.sum = x.catalog.size * x.pageSize :=
  List.sum_replicate_nat

variable {x : FixedPageIndex} {name : String} {i o k : Nat}

/-- The run and the number of a slot are the quotient and the remainder of its index. -/
theorem div_mod_of_slot (hs : Slot x.counts i o k) :
    i / x.pageSize = o ∧ i % x.pageSize + 1 = k := by
  obtain ⟨-, hk, hkp, hi⟩ := slot_replicate_iff.1 hs
  have hi' : i = (k - 1) + o * x.pageSize := by omega
  constructor
  · rw [hi', Nat.add_mul_div_right _ _ (by omega), Nat.div_eq_of_lt (by omega), Nat.zero_add]
  · rw [hi', Nat.add_mul_mod_self_right, Nat.mod_eq_of_lt (by omega)]
    omega

theorem resolve_of_le (h : x.total ≤ i) : x.resolve i = .error (.indexOutOfRange i x.total) := by
  unfold resolve
  split
  · exact if_neg (by omega)
  · rfl

theorem locate_of_find? {d : Category} (h : x.catalog.find? name = some d) (k : Nat) :
    x.locate name k =
      if k = 0 ∨ x.pageSize < k then .error (.indexOutOfRange k x.pageSize)
      else .ok (wrap (d.ordinal * x.pageSize + (k - 1))) := by
  unfold locate
  simp only [h]

theorem locate_of_unknown (h : x.catalog.find? name = none) (k : Nat) :
    x.locate name k = .error (.unknownCategory name) := by
  unfold locate
  simp only [h]

section Unwrapped

variable (hsum : x.counts.sum < sizeLimit)

include hsum

theorem total_eq : x.total = x.counts.sum := by
  unfold total
  rw [← sum_counts, wrap_of_lt hsum]

theorem resolve_slot (hs : Slot x.counts i o k) (ho : x.catalog.names[o]? = some name) :
    x.resolve i = .ok (x.catalog.solution ⟨name, o⟩ k) := by
  obtain ⟨hdiv, hmod⟩ := div_mod_of_slot hs
  unfold resolve
  rw [hdiv, hmod, Catalog.category?_eq_some ho, total_eq hsum]
  exact if_pos hs.lt_sum

theorem locate_slot (ho : x.catalog.find? name = some ⟨name, o⟩) (hs : Slot x.counts i o k) :
    x.locate name k = .ok i := by
  obtain ⟨-, hk, hkp, hi⟩ := slot_replicate_iff.1 hs
  have hlt := hs.lt_sum
  rw [locate_of_find? ho, if_neg (by omega), show o * x.pageSize + (k - 1) = i by omega,
    wrap_of_lt (by omega)]

theorem slotLaws : (SampleIndex.fixedPage x).SlotLaws x.catalog x.counts where
  length_eq := List.length_replicate
  total_eq := total_eq hsum
  resolve_slot := resolve_slot hsum
  resolve_error hi := by
    rw [← total_eq hsum] at hi ⊢
    exact resolve_of_le hi
  locate_slot := locate_slot hsum
  locate_error {o k n name} ho hn hk := by
    obtain rfl : n = x.pageSize := List.eq_of_mem_replicate (List.mem_of_getElem? hn)
    exact (locate_of_find? ho k).trans (if_pos (by omega))
  locate_unknown ho := locate_of_unknown ho _

end Unwrapped

end FixedPageIndex

/-! ### Scanned counts -/

theorem length_offsetsFrom (start : Nat) (counts : List Nat) :
    (offsetsFrom start counts).length = counts.length + 1 := by
  induction counts generalizing start with
  | nil => rfl
  | cons n ns ih => rw [offsetsFrom, List.length_cons, ih, List.length_cons]

/-- An offset is the sum of the counts before it. -/
theorem getElem?_offsetsFrom {start o : Nat} {counts : List Nat}
    (hsum : start + counts.sum < sizeLimit) (ho : o ≤ counts.length) :
    (offsetsFrom start counts)[o]? = some (start + (counts.take o).sum) := by
  induction counts generalizing start o with
  | nil =>
    obtain rfl : o = 0 := Nat.le_zero.1 ho
    rfl
  | cons n ns ih =>
    rw [List.sum_cons] at hsum
    cases o with
    | zero => rfl
    | succ o =>
      rw [List.length_cons] at ho
      rw [offsetsFrom, wrap_of_lt (by omega), List.getElem?_cons_succ, ih (by omega) (by omega),
        List.take_succ_cons, List.sum_cons, Nat.add_assoc]

/-- The leading items with a property are as many as the place of the first item without it. -/
theorem length_takeWhile_eq {α : Type} {p : α → Bool} {l : List α} {m : Nat} (hm : m < l.length)
    (hp : ∀ j (hj : j < m), p l[j] = true) (hn : p l[m] = false) :
    (l.takeWhile p).length = m := by
  have hidx : l.findIdx (fun a => !p a) = m :=
    (List.findIdx_eq hm).2 ⟨by rw [hn]; rfl, fun j hj => by rw [hp j hj]; rfl⟩
  rw [List.takeWhile_eq_take_findIdx_not, hidx, List.length_take]
  omega

namespace ScannedIndex

/-- The last category that starts at or before an index is the run of its slot. -/
theorem length_takeWhile_offsets {counts : List Nat} {i o k : Nat} (hs : Slot counts i o k)
    (hsum : counts.sum < sizeLimit) :
    ((offsetsFrom 0 counts).takeWhile (· ≤ i)).length = o + 1 := by
  have hlen := length_offsetsFrom 0 counts
  have ho := hs.lt_length
  have hget (j : Nat) (hj : j < (offsetsFrom 0 counts).length) :
      (offsetsFrom 0 counts)[j] = (counts.take j).sum := by
    have h : (offsetsFrom 0 counts)[j]? = some (0 + (counts.take j).sum) := by
      apply getElem?_offsetsFrom
      · omega
      · omega
    rw [Nat.zero_add] at h
    exact (List.getElem?_eq_some_iff.1 h).2
  refine length_takeWhile_eq (by omega) (fun j hj => ?_) ?_
  · have h1 := sum_take_le_sum_take counts (show j ≤ o by omega)
    have h2 := hs.sum_take_le
    rw [hget j (by omega)]
    exact decide_eq_true (by omega)
  · have h := hs.lt_sum_take_succ
    rw [hget (o + 1) (by omega)]
    exact decide_eq_false (by omega)

variable {x : ScannedIndex} {name : String} {i o k : Nat}

theorem resolve_of_le (h : x.total ≤ i) : x.resolve i = .error (.indexOutOfRange i x.total) :=
  if_pos h

theorem locate_of_find? {d : Category} (h : x.catalog.find? name = some d) (k : Nat) :
    x.locate name k =
      if k = 0 ∨ x.catalog.counts[d.ordinal]?.getD 0 < k then
        .error (.indexOutOfRange k (x.catalog.counts[d.ordinal]?.getD 0))
      else .ok (wrap (x.offsets[d.ordinal]?.getD 0 + (k - 1))) := by
  unfold locate
  simp only [h]

theorem locate_of_unknown (h : x.catalog.find? name = none) (k : Nat) :
    x.locate name k = .error (.unknownCategory name) := by
  unfold locate
  simp only [h]

section Unwrapped

variable (hx : x.offsets = offsetsFrom 0 x.catalog.counts)
  (hsum : x.catalog.counts.sum < sizeLimit)

include hx hsum

theorem getElem?_offsets (ho : o ≤ x.catalog.counts.length) :
    x.offsets[o]? = some (x.catalog.counts.take o).sum := by
  rw [hx, getElem?_offsetsFrom (by omega) ho, Nat.zero_add]

theorem total_eq : x.total = x.catalog.counts.sum := by
  rw [total, List.getLast?_eq_getElem?, hx, length_offsetsFrom, Nat.add_sub_cancel, ← hx,
    getElem?_offsets hx hsum (Nat.le_refl _), List.take_length, Option.getD_some]

theorem resolve_slot (hs : Slot x.catalog.counts i o k) (ho : x.catalog.names[o]? = some name) :
    x.resolve i = .ok (x.catalog.solution ⟨name, o⟩ k) := by
  have hlt := hs.lt_sum
  have hidx := hs.index_eq
  have hk := hs.one_le
  rw [resolve, total_eq hx hsum, if_neg (by omega), hx, length_takeWhile_offsets hs hsum, ← hx,
    Nat.add_sub_cancel]
  simp only [Catalog.category?_eq_some ho, getElem?_offsets hx hsum (Nat.le_of_lt hs.lt_length),
    Option.getD_some]
  rw [show i - (x.catalog.counts.take o).sum + 1 = k by omega]

theorem locate_slot (ho : x.catalog.find? name = some ⟨name, o⟩)
    (hs : Slot x.catalog.counts i o k) : x.locate name k = .ok i := by
  have hlt := hs.lt_sum
  have hidx := hs.index_eq
  have hk := hs.one_le
  have hkn := hs.le_count
  rw [locate_of_find? ho]
  dsimp only
  rw [if_neg (by omega), getElem?_offsets hx hsum (Nat.le_of_lt hs.lt_length), Option.getD_some,
    show (x.catalog.counts.take o).sum + (k - 1) = i by omega, wrap_of_lt (by omega)]

theorem slotLaws : (SampleIndex.scanned x).SlotLaws x.catalog x.catalog.counts where
  length_eq := x.catalog.length_counts
  total_eq := total_eq hx hsum
  resolve_slot := resolve_slot hx hsum
  resolve_error hi := by
    rw [← total_eq hx hsum] at hi ⊢
    exact resolve_of_le hi
  locate_slot := locate_slot hx hsum
  locate_error {o k n name} ho hn hk := by
    show x.locate name k = _
    rw [locate_of_find? ho, hn, Option.getD_some]
    exact if_pos (by omega)
  locate_unknown ho := locate_of_unknown ho _

end Unwrapped

end ScannedIndex

/-! ## The numbering -/

namespace SampleIndex

/-- The index numbers the solutions of the catalog through all categories, each of which has as
many as its count: resolving and locating are inverse, and each fails exactly outside its domain. -/
structure IsNumbering (x : SampleIndex) (c : Catalog) (counts : List Nat) : Prop where
  total_eq : x.total = counts.sum
  resolve_ok_iff : ∀ i, (∃ s, x.resolve i = .ok s) ↔ i < counts.sum
  resolve_error : ∀ i, ¬ i < counts.sum → x.resolve i = .error (.indexOutOfRange i counts.sum)
  locate_resolve : ∀ i s, x.resolve i = .ok s → x.locate s.category.name s.number = .ok i
  locate_ok_iff : ∀ name k, (∃ i, x.locate name k = .ok i) ↔
    ∃ o n : Nat, c.names[o]? = some name ∧ counts[o]? = some n ∧ 1 ≤ k ∧ k ≤ n
  locate_unknown : ∀ name k, name ∉ c.names → x.locate name k = .error (.unknownCategory name)
  locate_error : ∀ name (o n k : Nat), c.names[o]? = some name → counts[o]? = some n →
    ¬ (1 ≤ k ∧ k ≤ n) → x.locate name k = .error (.indexOutOfRange k n)
  resolve_locate : ∀ name (o k i : Nat), c.names[o]? = some name → x.locate name k = .ok i →
    x.resolve i = .ok ⟨⟨name, o⟩, k, c.solutionPath name k⟩
  resolve_lex : ∀ i j s t, i < j → x.resolve i = .ok s → x.resolve j = .ok t →
    s.category.ordinal < t.category.ordinal ∨
      s.category.ordinal = t.category.ordinal ∧ s.number < t.number

namespace SlotLaws

variable {x : SampleIndex} {c : Catalog} {counts : List Nat}

theorem exists_name (h : x.SlotLaws c counts) {i o k : Nat} (hs : Slot counts i o k) :
    ∃ name, c.names[o]? = some name := by
  have ho := hs.lt_length
  rw [h.length_eq, ← c.length_names] at ho
  exact ⟨_, List.getElem?_eq_getElem ho⟩

/-- An index resolves to the solution of its slot, and only indexes below the total do. -/
theorem resolve_eq_ok_iff (h : x.SlotLaws c counts) {i : Nat} {s : Solution} :
    x.resolve i = .ok s ↔
      ∃ o k name, Slot counts i o k ∧ c.names[o]? = some name ∧ s = c.solution ⟨name, o⟩ k := by
  constructor
  · intro hs
    rcases Nat.lt_or_ge i counts.sum with hi | hi
    · obtain ⟨o, k, hslot⟩ := exists_slot hi
      obtain ⟨name, ho⟩ := h.exists_name hslot
      rw [h.resolve_slot hslot ho] at hs
      exact ⟨o, k, name, hslot, ho, (Except.ok.inj hs).symm⟩
    · rw [h.resolve_error hi] at hs
      exact absurd hs (by simp)
  · rintro ⟨o, k, name, hslot, ho, rfl⟩
    exact h.resolve_slot hslot ho

theorem exists_resolve_iff (h : x.SlotLaws c counts) {i : Nat} :
    (∃ s, x.resolve i = .ok s) ↔ i < counts.sum := by
  constructor
  · rintro ⟨s, hs⟩
    obtain ⟨o, k, name, hslot, -, -⟩ := h.resolve_eq_ok_iff.1 hs
    exact hslot.lt_sum
  · intro hi
    obtain ⟨o, k, hslot⟩ := exists_slot hi
    obtain ⟨name, ho⟩ := h.exists_name hslot
    exact ⟨_, h.resolve_slot hslot ho⟩

/-- A number up to the count of a category is located at the index of its slot, and no other. -/
theorem locate_eq_ok_iff (h : x.SlotLaws c counts) {name : String} {o n k i : Nat}
    (hf : c.find? name = some ⟨name, o⟩) (hn : counts[o]? = some n) :
    x.locate name k = .ok i ↔ Slot counts i o k := by
  constructor
  · intro hl
    by_cases hk : 1 ≤ k ∧ k ≤ n
    · have hslot := slot_of_le hn hk.1 hk.2
      rw [h.locate_slot hf hslot] at hl
      exact Except.ok.inj hl ▸ hslot
    · rw [h.locate_error hf hn hk] at hl
      exact absurd hl (by simp)
  · exact h.locate_slot hf

theorem exists_count (h : x.SlotLaws c counts) {name : String} {o : Nat}
    (ho : c.names[o]? = some name) : ∃ n, counts[o]? = some n := by
  have hlt := (List.getElem?_eq_some_iff.1 ho).1
  rw [c.length_names, ← h.length_eq] at hlt
  exact ⟨_, List.getElem?_eq_getElem hlt⟩

theorem exists_locate_iff (h : x.SlotLaws c counts) (hnames : c.names.Nodup) {name : String}
    {k : Nat} :
    (∃ i, x.locate name k = .ok i) ↔
      ∃ o n : Nat, c.names[o]? = some name ∧ counts[o]? = some n ∧ 1 ≤ k ∧ k ≤ n := by
  constructor
  · rintro ⟨i, hi⟩
    by_cases hm : name ∈ c.names
    · obtain ⟨o, ho⟩ := List.mem_iff_getElem?.1 hm
      obtain ⟨n, hn⟩ := h.exists_count ho
      have hslot := (h.locate_eq_ok_iff (Catalog.find?_eq_some_of_nodup hnames ho) hn).1 hi
      have hle := hslot.le_count
      rw [hn] at hle
      exact ⟨o, n, ho, hn, hslot.one_le, hle⟩
    · rw [h.locate_unknown (Catalog.find?_eq_none_iff.2 hm)] at hi
      exact absurd hi (by simp)
  · rintro ⟨o, n, ho, hn, hk, hkn⟩
    exact ⟨_, h.locate_slot (Catalog.find?_eq_some_of_nodup hnames ho) (slot_of_le hn hk hkn)⟩

/-- Over distinct names the slots are the numbering of the catalog. -/
theorem isNumbering (h : x.SlotLaws c counts) (hnames : c.names.Nodup) :
    x.IsNumbering c counts where
  total_eq := h.total_eq
  resolve_ok_iff _ := h.exists_resolve_iff
  resolve_error i hi := h.resolve_error (by omega)
  locate_resolve i s hs := by
    obtain ⟨o, k, name, hslot, ho, rfl⟩ := h.resolve_eq_ok_iff.1 hs
    exact h.locate_slot (Catalog.find?_eq_some_of_nodup hnames ho) hslot
  locate_ok_iff _ _ := h.exists_locate_iff hnames
  locate_unknown name k hm := h.locate_unknown (Catalog.find?_eq_none_iff.2 hm)
  locate_error name o n k ho hn hk :=
    h.locate_error (Catalog.find?_eq_some_of_nodup hnames ho) hn hk
  resolve_locate name o k i ho hi := by
    obtain ⟨n, hn⟩ := h.exists_count ho
    have hslot := (h.locate_eq_ok_iff (Catalog.find?_eq_some_of_nodup hnames ho) hn).1 hi
    exact h.resolve_slot hslot ho
  resolve_lex i j s t hij hs ht := by
    obtain ⟨o, k, name, hslot, -, rfl⟩ := h.resolve_eq_ok_iff.1 hs
    obtain ⟨o', k', name', hslot', -, rfl⟩ := h.resolve_eq_ok_iff.1 ht
    exact hslot.lex hslot' hij

end SlotLaws

end SampleIndex

/-- Both kinds of sample index number the solutions of a catalog without repeated names, as long
as the total is a size. -/
theorem solutions_numbered (c : Catalog) (hnames : c.names.Nodup) :
    (c.counts.sum < sizeLimit →
      (SampleIndex.scanned (ScannedIndex.ofCatalog c)).IsNumbering c c.counts) ∧
    ∀ p, 1 ≤ p → (List.replicate c.size p).sum < sizeLimit →
      (SampleIndex.fixedPage (FixedPageIndex.ofCatalog c p)).IsNumbering c
        (List.replicate c.size p) := by
  constructor
  · intro hsum
    exact (ScannedIndex.slotLaws (x := .ofCatalog c) rfl hsum).isNumbering hnames
  · intro p hp hsum
    have hx : FixedPageIndex.ofCatalog c p = ⟨c, p⟩ := by
      rw [FixedPageIndex.ofCatalog, Nat.max_eq_left hp]
    rw [hx]
    exact (FixedPageIndex.slotLaws (x := ⟨c, p⟩) hsum).isNumbering hnames

/-- An empty category in the middle shares its offset with the next one. -/
theorem solutions_numbered_empty_middle :
    let c := Catalog.ofCounts "/d" "edges" [("a", 2), ("b", 0), ("c", 3)]
    c.names.Nodup ∧ c.counts.sum < sizeLimit ∧ (List.replicate c.size 4).sum < sizeLimit ∧
      (SampleIndex.scanned (ScannedIndex.ofCatalog c)).IsNumbering c c.counts ∧
      (SampleIndex.fixedPage (FixedPageIndex.ofCatalog c 4)).IsNumbering c
        (List.replicate c.size 4) := by
  intro c
  have hnames : c.names.Nodup := by decide
  have hscanned : c.counts.sum < sizeLimit := by decide
  have hpages : (List.replicate c.size 4).sum < sizeLimit := by decide
  exact ⟨hnames, hscanned, hpages, (solutions_numbered c hnames).1 hscanned,
    (solutions_numbered c hnames).2 4 (by decide) hpages⟩

end TreeCorpus
