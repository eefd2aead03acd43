import TreeCorpus.Disk.Edit
import TreeCorpus.Proofs.Catalog.Domain
import TreeCorpus.Proofs.Catalog.Scan
import TreeCorpus.Proofs.Settings.InRange

/-!
# Pages whose product is no size

The index of fixed pages is exact as long as the number of categories times the page size is a size.
A valid page size has no upper bound, so the product may be none. A program that stops at overflows
then has no total and resolves nothing, and it is stopped at solutions that it should locate. In one
whose products wrap the total is another number, what is located is not what is resolved, and past
`2 ^ 64` two solutions are located at one index (`pages_exact`).
-/

namespace TreeCorpus

open Number

namespace SampleIndex

/-- No two solutions are located at one index. -/
def LocatesApart (o : Overflow) (x : SampleIndex) : Prop :=
  ∀ a j b k i, x.locate? o a j = some (.ok i) → x.locate? o b k = some (.ok i) → a = b ∧ j = k

/-- A solution is located at an index that resolves to it. -/
def ResolvesLocated (o : Overflow) (x : SampleIndex) : Prop :=
  ∀ name k i, x.locate? o name k = some (.ok i) →
    ∃ sol, x.resolve? o i = some (.ok sol) ∧ sol.category.name = name ∧ sol.number = k

/-- Every solution of the pages is located. -/
def LocatesAll (o : Overflow) (x : SampleIndex) (pageSize : Nat) : Prop :=
  ∀ name ∈ x.catalog.names, ∀ k, 1 ≤ k → k ≤ pageSize → ∃ i, x.locate? o name k = some (.ok i)

variable {o : Overflow} {x : SampleIndex}

theorem ResolvesLocated.locatesApart (h : x.ResolvesLocated o) : x.LocatesApart o := by
  intro a j b k i ha hb
  obtain ⟨sol, hsol, hname, hnumber⟩ := h a j i ha
  obtain ⟨sol', hsol', hname', hnumber'⟩ := h b k i hb
  obtain rfl := Except.ok.inj (Option.some.inj (hsol.symm.trans hsol'))
  exact ⟨hname.symm.trans hname', hnumber.symm.trans hnumber'⟩

/-- Resolving by the slots of the counts undoes locating by them, where no total is too large. -/
theorem SlotLaws.resolvesLocated {c : Catalog} {counts : List Nat} (h : x.SlotLaws c counts)
    (hpeak : x.totalPeak < sizeLimit) : x.ResolvesLocated o := by
  intro name k i hi
  have hi : x.locate name k = .ok i := Overflow.eq_of_checked hi
  have hresolve : x.resolve? o i = some (x.resolve i) := Overflow.checked_of_lt hpeak
  cases hf : c.find? name with
  | none =>
    rw [h.locate_unknown hf] at hi
    exact absurd hi (by simp)
  | some cat =>
    obtain ⟨rfl, ho, -⟩ := Catalog.find?_eq_some_iff.1 hf
    obtain ⟨n, hn⟩ := h.exists_count ho
    have hslot := (h.locate_eq_ok_iff hf hn).1 hi
    exact ⟨_, hresolve.trans (congrArg some (h.resolve_slot hslot ho)), rfl, rfl⟩

end SampleIndex

namespace FixedPageIndex

variable {x : FixedPageIndex} {o : Overflow} {name : String} {i k : Nat}

/-! ## The slot of what is located -/

/-- What is located has a slot, the index is what that of the slot wraps to, and no number taken for
it is more than one above. -/
theorem exists_slot_of_locate (h : x.locate name k = .ok i) :
    ∃ j ordinal, Slot x.counts j ordinal k ∧ x.catalog.names[ordinal]? = some name ∧
      x.locatePeak name k = j + 1 ∧ i = wrap j := by
  cases hf : x.catalog.find? name with
  | none =>
    rw [locate_of_unknown hf] at h
    exact absurd h (by simp)
  | some c =>
    rw [locate_of_find? hf] at h
    split at h
    · exact absurd h (by simp)
    · rename_i hk
      obtain ⟨rfl, hname, -⟩ := Catalog.find?_eq_some_iff.1 hf
      have hlt : c.ordinal < x.catalog.size :=
        x.catalog.length_names ▸ (List.getElem?_eq_some_iff.1 hname).1
      refine ⟨c.ordinal * x.pageSize + (k - 1), c.ordinal, slot_replicate_iff.2 ?_, hname, ?_,
        (Except.ok.inj h).symm⟩
      · omega
      · rw [locatePeak, hf]
        dsimp only
        rw [if_neg hk]
        omega

theorem exists_locate (hname : name ∈ x.catalog.names) (hk : 1 ≤ k) (hkp : k ≤ x.pageSize) :
    ∃ i, x.locate name k = .ok i := by
  cases hf : x.catalog.find? name with
  | none => exact absurd hname (Catalog.find?_eq_none_iff.1 hf)
  | some c => exact ⟨_, (locate_of_find? hf k).trans (if_neg (by omega))⟩

/-- Over distinct names a solution is located by the slot of its category. -/
theorem locate?_slot (hn : x.catalog.names.Nodup) {ordinal : Nat} (hs : Slot x.counts i ordinal k)
    (hname : x.catalog.names[ordinal]? = some name) :
    (SampleIndex.fixedPage x).locate? o name k = o.checked (i + 1) (.ok (wrap i)) := by
  obtain ⟨-, hk, hkp, hi⟩ := slot_replicate_iff.1 hs
  obtain ⟨i', hloc⟩ := exists_locate (List.mem_of_getElem? hname) hk hkp
  obtain ⟨j, ordinal', hs', hname', hpeak, rfl⟩ := exists_slot_of_locate hloc
  have hlt := (List.getElem?_eq_some_iff.1 hname).1
  obtain rfl := (List.getElem?_inj hlt hn).1 (hname.trans hname'.symm)
  obtain rfl : i = j := by
    have h₁ := hs.index_eq
    have h₂ := hs'.index_eq
    omega
  show o.checked (x.locatePeak name k) (x.locate name k) = _
  rw [hpeak, hloc]

theorem exists_name_of_slot {ordinal : Nat} (hs : Slot x.counts i ordinal k) :
    ∃ name, x.catalog.names[ordinal]? = some name := by
  have ho : ordinal < x.catalog.names.length := by
    rw [x.catalog.length_names]
    exact (slot_replicate_iff.1 hs).1
  exact ⟨_, List.getElem?_eq_getElem ho⟩

/-! ## Products that are sizes -/

theorem locatesAll (h : x.counts.sum < sizeLimit) :
    (SampleIndex.fixedPage x).LocatesAll o x.pageSize := by
  intro name hname k hk hkp
  obtain ⟨i, hloc⟩ := exists_locate hname hk hkp
  obtain ⟨j, _, hs, -, hpeak, -⟩ := exists_slot_of_locate hloc
  have hlt : x.locatePeak name k < sizeLimit := by
    have hsum := hs.lt_sum
    omega
  exact ⟨i, (Overflow.checked_of_lt hlt).trans (congrArg some hloc)⟩

/-! ## Products that are none -/

/-- A program that stops locates no solution at a wrong index. -/
theorem locatesApart_stops (x : FixedPageIndex) :
    (SampleIndex.fixedPage x).LocatesApart .stops := by
  -- below the limit an index is the one of its slot
  have hslot {name : String} {k i : Nat}
      (h : (SampleIndex.fixedPage x).locate? .stops name k = some (.ok i)) :
      ∃ ordinal, Slot x.counts i ordinal k ∧ x.catalog.names[ordinal]? = some name := by
    obtain ⟨hlt, hloc⟩ := Overflow.checked_stops_eq_some_iff.1 h
    obtain ⟨j, ordinal, hs, hname, hpeak, rfl⟩ := exists_slot_of_locate hloc
    have hlt : x.locatePeak name k < sizeLimit := hlt
    rw [wrap_of_lt (by omega)]
    exact ⟨ordinal, hs, hname⟩
  intro a j b k i ha hb
  obtain ⟨ordinal, hs, hname⟩ := hslot ha
  obtain ⟨ordinal', hs', hname'⟩ := hslot hb
  obtain ⟨rfl, rfl⟩ := hs.unique hs'
  exact ⟨Option.some.inj (hname.symm.trans hname'), rfl⟩

variable (hn : x.catalog.names.Nodup)
include hn

/-- The first solution of too many is located and not resolved by a program that stops. -/
theorem not_resolvesLocated_stops (h : sizeLimit ≤ x.counts.sum) :
    ¬ (SampleIndex.fixedPage x).ResolvesLocated .stops := by
  intro hr
  have hpos : 1 < sizeLimit := by decide
  obtain ⟨ordinal, k, hs⟩ := exists_slot (show 0 < x.counts.sum by omega)
  obtain ⟨name, hname⟩ := exists_name_of_slot hs
  have hloc : (SampleIndex.fixedPage x).locate? .stops name k = some (.ok 0) :=
    (locate?_slot hn hs hname).trans (Overflow.checked_of_lt hpos)
  obtain ⟨sol, hsol, -⟩ := hr name k 0 hloc
  have hnone : (SampleIndex.fixedPage x).resolve? .stops 0 = none :=
    Overflow.checked_stops_of_le (by rwa [sum_counts] at h)
  exact absurd (hnone.symm.trans hsol) (by simp)

/-- Of too many solutions the one at the wrapped total is not resolved. -/
theorem not_resolvesLocated_wraps (h : sizeLimit ≤ x.counts.sum) :
    ¬ (SampleIndex.fixedPage x).ResolvesLocated .wraps := by
  intro hr
  have hlt := x.total_lt
  obtain ⟨ordinal, k, hs⟩ := exists_slot (Nat.lt_of_lt_of_le hlt h)
  obtain ⟨name, hname⟩ := exists_name_of_slot hs
  have hloc : (SampleIndex.fixedPage x).locate? .wraps name k = some (.ok x.total) := by
    rw [locate?_slot hn hs hname, Overflow.checked_wraps, wrap_of_lt hlt]
  obtain ⟨sol, hsol, -⟩ := hr name k x.total hloc
  have hout : x.resolve x.total = .error (.indexOutOfRange x.total x.total) :=
    resolve_of_le (Nat.le_refl _)
  exact absurd (hout.symm.trans (Option.some.inj hsol)) (by simp)

theorem not_resolvesLocated (h : sizeLimit ≤ x.counts.sum) (o : Overflow) :
    ¬ (SampleIndex.fixedPage x).ResolvesLocated o := by
  cases o with
  | wraps => exact not_resolvesLocated_wraps hn h
  | stops => exact not_resolvesLocated_stops hn h

/-- The solution at the largest size stops the program that should locate it. -/
theorem not_locatesAll (h : sizeLimit ≤ x.counts.sum) :
    ¬ (SampleIndex.fixedPage x).LocatesAll .stops x.pageSize := by
  intro hl
  have hpos : 0 < sizeLimit := by decide
  obtain ⟨ordinal, k, hs⟩ := exists_slot (show sizeLimit - 1 < x.counts.sum by omega)
  obtain ⟨name, hname⟩ := exists_name_of_slot hs
  obtain ⟨-, hk, hkp, -⟩ := slot_replicate_iff.1 hs
  obtain ⟨i, hi⟩ := hl name (List.mem_of_getElem? hname) k hk hkp
  rw [locate?_slot hn hs hname, Overflow.checked_stops_of_le (by omega)] at hi
  exact absurd hi (by simp)

/-- Past all sizes a solution is located where the first one is. -/
theorem not_locatesApart (h : sizeLimit < x.counts.sum) :
    ¬ (SampleIndex.fixedPage x).LocatesApart .wraps := by
  intro hl
  obtain ⟨ordinal₀, k₀, hs₀⟩ := exists_slot (show 0 < x.counts.sum by omega)
  obtain ⟨ordinal, k, hs⟩ := exists_slot h
  obtain ⟨name₀, hname₀⟩ := exists_name_of_slot hs₀
  obtain ⟨name, hname⟩ := exists_name_of_slot hs
  have hfirst : (SampleIndex.fixedPage x).locate? .wraps name₀ k₀ = some (.ok 0) :=
    locate?_slot hn hs₀ hname₀
  have hwrapped : (SampleIndex.fixedPage x).locate? .wraps name k = some (.ok 0) := by
    rw [locate?_slot hn hs hname, Overflow.checked_wraps, wrap, Nat.mod_self]
  obtain ⟨rfl, rfl⟩ := hl name₀ k₀ name k 0 hfirst hwrapped
  have hlt := (List.getElem?_eq_some_iff.1 hname₀).1
  obtain rfl := (List.getElem?_inj hlt hn).1 (hname₀.trans hname.symm)
  -- one slot cannot have both indexes
  have h₀ := hs₀.index_eq
  have h₁ := hs.index_eq
  have hpos : 0 < sizeLimit := by decide
  omega

end FixedPageIndex

/-! ## Valid settings -/

theorem Config.one_le_pageSize {c : Config} (h : c.validate = .ok c) : 1 ≤ c.catalog.pageSize :=
  (Config.validate_eq_ok_iff_inRange.1 h).one_le_pageSize

/-- Under valid settings with fixed pages the total is the product of the number of categories and
the page size exactly if that is a size. Then all solutions are located, apart and each at an index
that resolves to it. From the limit on a program that stops has no total and resolves nothing, and
in a catalog without repeated names it is stopped at a solution that it should locate. In one whose
products wrap a solution is not resolved where it is located, and past the limit two solutions are
located at one index. -/
theorem pages_exact {d : Disk} {c : Config} {x : SampleIndex} (hc : c.validate = .ok c)
    (hs : c.catalog.strategy = .fixedPage) (hx : SampleIndex.load d c.catalog = .ok x) :
    let pageSize := c.catalog.pageSize
    let product := x.catalog.size * pageSize
    (∀ o, SampleIndex.load? o d c.catalog = some (.ok x)) ∧
      (∀ o, x.total? o = some product ↔ product < sizeLimit) ∧
      (product < sizeLimit → ∀ o, x.LocatesAll o pageSize ∧ x.ResolvesLocated o ∧
        x.LocatesApart o) ∧
      (sizeLimit ≤ product → x.total? .stops = none ∧ ∀ i, x.resolve? .stops i = none) ∧
      x.LocatesApart .stops ∧
      (x.catalog.names.Nodup → sizeLimit ≤ product → ¬ x.LocatesAll .stops pageSize) ∧
      (x.catalog.names.Nodup → sizeLimit ≤ product → ∀ o, ¬ x.ResolvesLocated o) ∧
      (x.catalog.names.Nodup → sizeLimit < product → ¬ x.LocatesApart .wraps) := by
  have hp := Config.one_le_pageSize hc
  obtain ⟨cat, hcat, rfl⟩ := map_eq_ok_iff.1 hx
  have hx : SampleIndex.ofCatalog cat c.catalog = .fixedPage ⟨cat, c.catalog.pageSize⟩ := by
    simp only [SampleIndex.ofCatalog, hs, FixedPageIndex.ofCatalog, Nat.max_eq_left hp]
  rw [hx]
  have hsum := FixedPageIndex.sum_counts ⟨cat, c.catalog.pageSize⟩
  refine ⟨fun o => ?_, fun o => ⟨fun h => ?_, fun h => ?_⟩, fun h o => ?_, fun h => ?_,
    FixedPageIndex.locatesApart_stops _, fun hn h => ?_, fun hn h => ?_, fun hn h => ?_⟩
  · exact SampleIndex.load?_eq_some o ((SampleIndex.load_of_catalog hcat).trans (congrArg _ hx))
      (show 0 < sizeLimit by decide)
  · rw [← Overflow.eq_of_checked h]
    exact FixedPageIndex.total_lt _
  · exact (Overflow.checked_of_lt h).trans (congrArg some (wrap_of_lt h))
  · have hlaws := FixedPageIndex.slotLaws (x := ⟨cat, c.catalog.pageSize⟩) (by rwa [hsum])
    have hresolves : SampleIndex.ResolvesLocated o _ := hlaws.resolvesLocated h
    exact ⟨FixedPageIndex.locatesAll (by rwa [hsum]), hresolves, hresolves.locatesApart⟩
  · exact ⟨Overflow.checked_stops_of_le h, fun i => Overflow.checked_stops_of_le h⟩
  · exact FixedPageIndex.not_locatesAll hn (by rwa [hsum])
  · exact FixedPageIndex.not_resolvesLocated hn (by rwa [hsum])
  · exact FixedPageIndex.not_locatesApart hn (by rwa [hsum])

/-! ## Five categories -/

/-- Five empty directories. -/
def fiveDisk : Disk :=
  ["a", "b", "c", "d", "e"].foldl (fun d name => d.plantDirectory (Path.join "r" name)) Disk.empty

/-- Settings for pages of the five categories. -/
def fiveSettings (pageSize : Nat) : Config :=
  { catalog := {
      root := "r", strategy := .fixedPage, pageSize, categories := ["a", "b", "c", "d", "e"] } }

def fiveIndex (pageSize : Nat) : SampleIndex :=
  .fixedPage ⟨⟨"r", "edges", ["a", "b", "c", "d", "e"].map fun name => ⟨name, [], 0⟩⟩, pageSize⟩

theorem pages_exact_five :
    (fiveSettings 7).validate = .ok (fiveSettings 7) ∧
      SampleIndex.load fiveDisk (fiveSettings 7).catalog = .ok (fiveIndex 7) ∧
      (fiveIndex 7).total? .stops = some (5 * 7) ∧ (fiveIndex 7).LocatesAll .stops 7 ∧
      (fiveIndex 7).ResolvesLocated .stops ∧ (fiveIndex 7).LocatesApart .stops := by
  have hvalid : (fiveSettings 7).validate = .ok (fiveSettings 7) := by decide +kernel
  have hload : SampleIndex.load fiveDisk (fiveSettings 7).catalog = .ok (fiveIndex 7) := by
    decide +kernel
  obtain ⟨-, htotal, hexact, -⟩ := pages_exact hvalid rfl hload
  exact ⟨hvalid, hload, (htotal .stops).2 (by decide), hexact (by decide) .stops⟩

/-- A quarter of all sizes. -/
def hugePage : Nat := 1 <<< 62

/-- Valid settings may ask for huge pages: with five of them the program stops at the total and at
the first solution of the last category. Wrapped, the total is that of one page, and the first
solutions of the first and the last category are located at one index. -/
theorem pages_wrap_five :
    (fiveSettings hugePage).validate = .ok (fiveSettings hugePage) ∧
      SampleIndex.load fiveDisk (fiveSettings hugePage).catalog = .ok (fiveIndex hugePage) ∧
      (fiveIndex hugePage).catalog.size * hugePage = 5 * hugePage ∧
      (fiveIndex hugePage).total? .stops = none ∧
      (fiveIndex hugePage).locate? .stops "a" 1 = some (.ok 0) ∧
      (fiveIndex hugePage).locate? .stops "e" 1 = none ∧
      (fiveIndex hugePage).total? .wraps = some hugePage ∧
      (fiveIndex hugePage).locate? .wraps "a" 1 = some (.ok 0) ∧
      (fiveIndex hugePage).locate? .wraps "e" 1 = some (.ok 0) := by
  decide +kernel

end TreeCorpus
