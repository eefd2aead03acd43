import TreeCorpus.Command.Run
import TreeCorpus.Proofs.Catalog.Limit
import TreeCorpus.Proofs.Catalog.Pages

/-!
# Commands without overflows

No number that a command takes from the index of its catalog exceeds the number of solutions of that
catalog. Where these are no more than there are sizes, a program that stops at overflows therefore
runs every command to the outcome that it has in a program whose sums and products wrap
(`Invocation.run?_eq_some`); where they are more, listing the catalog is stopped
(`Command.execute?_catalog_eq_none_iff`).
-/

namespace TreeCorpus

open Number

namespace FixedPageIndex

theorem locatePeak_le (x : FixedPageIndex) (name : String) (k : Nat) :
    x.locatePeak name k ≤ x.catalog.size * x.pageSize := by
  rw [← sum_counts]
  cases hloc : x.locate name k with
  | ok i =>
    obtain ⟨j, _, hs, -, hpeak, -⟩ := exists_slot_of_locate hloc
    rw [hpeak]
    exact hs.lt_sum
  | error e =>
    -- what is not located takes no number
    have hzero : x.locatePeak name k = 0 := by
      unfold locate at hloc
      unfold locatePeak
      cases hf : x.catalog.find? name with
      | none => rfl
      | some c =>
        rw [hf] at hloc
        dsimp only at hloc ⊢
        split at hloc
        · exact if_pos ‹_›
        · exact absurd hloc (by simp)
    omega

end FixedPageIndex

namespace ScannedIndex

theorem locatePeak_le {c : Catalog} (h : c.counts.sum < sizeLimit) (name : String) (k : Nat) :
    (ofCatalog c).locatePeak name k ≤ c.counts.sum := by
  unfold locatePeak ofCatalog
  dsimp only
  cases hf : c.find? name with
  | none => exact Nat.zero_le _
  | some d =>
    dsimp only
    split
    · exact Nat.zero_le _
    · rename_i hk
      obtain ⟨rfl, hname, -⟩ := Catalog.find?_eq_some_iff.1 hf
      have hlt : d.ordinal < c.counts.length := by
        rw [c.length_counts, ← c.length_names]
        exact (List.getElem?_eq_some_iff.1 hname).1
      have hcount := List.getElem?_eq_getElem hlt
      rw [hcount, Option.getD_some] at hk
      have hslot := (slot_of_le hcount (k := k) (by omega) (by omega)).lt_sum
      rw [getElem?_offsetsFrom (by omega) (Nat.le_of_lt hlt), Option.getD_some]
      omega

end ScannedIndex

namespace SampleIndex

variable {x : SampleIndex}

theorem Unwrapped.setupPeak_lt (h : x.Unwrapped) : x.setupPeak < sizeLimit := by
  cases x with
  | fixedPage x => exact (by decide : 0 < sizeLimit)
  | scanned x => exact h

theorem Unwrapped.totalPeak_lt (h : x.Unwrapped) : x.totalPeak < sizeLimit := by
  cases x with
  | fixedPage x => exact h
  | scanned x => exact (by decide : 0 < sizeLimit)

theorem Formed.locatePeak_lt (hx : x.Formed) (h : x.Unwrapped) (name : String) (k : Nat) :
    x.locatePeak name k < sizeLimit := by
  obtain ⟨c, s, rfl⟩ := hx
  unfold ofCatalog at h ⊢
  cases hs : s.strategy with
  | fixedPage =>
    rw [hs] at h
    exact Nat.lt_of_le_of_lt (FixedPageIndex.locatePeak_le _ name k) h
  | scanned =>
    rw [hs] at h
    exact Nat.lt_of_le_of_lt (ScannedIndex.locatePeak_le h name k) h

/-- Setting up an index and its total take no overflow together exactly if its solutions are no more
than there are sizes. -/
theorem max_peak_lt_iff : max x.setupPeak x.totalPeak < sizeLimit ↔ x.Unwrapped := by
  constructor
  · intro h
    cases x with
    | fixedPage x => exact Nat.lt_of_le_of_lt (Nat.le_max_right _ _) h
    | scanned x => exact Nat.lt_of_le_of_lt (Nat.le_max_left _ _) h
  · exact fun h => Nat.max_lt.2 ⟨h.setupPeak_lt, h.totalPeak_lt⟩

end SampleIndex

namespace Command

variable {d : Disk} {c : Config} {o : Overflow} {colors : Bool}

theorem indexPeak_lt {s : CatalogSettings} {peak : SampleIndex → Nat}
    (h : ∀ x, SampleIndex.load d s = .ok x → x.Unwrapped)
    (hpeak : ∀ x : SampleIndex, x.Formed → x.Unwrapped → peak x < sizeLimit) :
    indexPeak d s peak < sizeLimit := by
  unfold indexPeak
  cases hx : SampleIndex.load d s with
  | error e => exact (by decide : 0 < sizeLimit)
  | ok x =>
    have hu := h x hx
    exact Nat.max_lt.2 ⟨hu.setupPeak_lt, hpeak x (SampleIndex.formed_of_load hx) hu⟩

theorem peak_lt (h : ∀ x, SampleIndex.load d c.catalog = .ok x → x.Unwrapped) (i : Command) :
    i.peak d c < sizeLimit := by
  have hzero : 0 < sizeLimit := by decide
  have htotal : indexPeak d c.catalog SampleIndex.totalPeak < sizeLimit :=
    indexPeak_lt h fun _ _ hu => hu.totalPeak_lt
  have hdataset : datasetPeak d c < sizeLimit := by
    refine indexPeak_lt h fun x _ hu => ?_
    split
    · exact hzero
    · exact hu.totalPeak_lt
  have hlocate (category : String) (number : Nat) :
      (locate category number).peak d c < sizeLimit := by
    refine indexPeak_lt h fun x hx hu => ?_
    have hpeak := hx.locatePeak_lt hu category number
    split
    · exact hpeak
    · exact Nat.max_lt.2 ⟨hpeak, hu.totalPeak_lt⟩
  match i with
  | .catalog | .resolve _ => exact htotal
  | .locate category number => exact hlocate category number
  | .sample _ | .build .. | .layout (.sample _) .. => exact hdataset
  | .init _ | .check | .layout (.edges _) .. | .classify .. | .rank .. => exact hzero

/-- A command has its outcome if the solutions of its catalog are no more than there are sizes. -/
theorem execute?_eq_some (h : ∀ x, SampleIndex.load d c.catalog = .ok x → x.Unwrapped)
    (i : Command) : execute? o colors d c i = some (execute colors d c i) :=
  Overflow.checked_of_lt (peak_lt h i)

/-- A program that stops does not list a catalog with more solutions than there are sizes. -/
theorem execute?_catalog_eq_none_iff : execute? .stops colors d c catalog = none ↔
    ∃ x, SampleIndex.load d c.catalog = .ok x ∧ ¬ x.Unwrapped := by
  unfold execute?
  rw [Overflow.checked_stops_eq_none_iff]
  unfold peak indexPeak
  cases hx : SampleIndex.load d c.catalog with
  | error e =>
    refine iff_of_false (show ¬ sizeLimit ≤ 0 by decide) ?_
    rintro ⟨x, hx', -⟩
    exact absurd hx' (by simp)
  | ok x =>
    rw [← Nat.not_lt, SampleIndex.max_peak_lt_iff]
    constructor
    · exact fun h => ⟨x, rfl, h⟩
    · rintro ⟨x', hx', h⟩
      rwa [Except.ok.inj hx']

end Command

/-- A call has its outcome if the solutions of the catalog of its settings are no more than there
are sizes. -/
theorem Invocation.run?_eq_some {o : Overflow} {colors : Bool} {d : Disk} {i : Invocation}
    (h : ∀ c x, i.settings d = .ok c → SampleIndex.load d c.catalog = .ok x → x.Unwrapped) :
    i.run? o colors d = some (i.run colors d) := by
  unfold run? run
  cases hc : i.settings d with
  | error e => rfl
  | ok c => exact Command.execute?_eq_some (fun x hx => h c x hc hx) i.command

end TreeCorpus
