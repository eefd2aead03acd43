import TreeCorpus.Disk.Edit
import TreeCorpus.Proofs.Catalog.Domain
import TreeCorpus.Proofs.Catalog.Scan

/-!
# The first categories of a catalog

A limit on the categories cuts a catalog to the first ones (`load_limited`) and numbers nothing
anew: the offsets of the first categories are the first offsets (`offsetsFrom_take`), so an index of
either kind answers as the one of the whole catalog does, which may answer more
(`limit_keeps_samples`).
-/

namespace TreeCorpus

open Number

/-! ## Catalogs -/

namespace Catalog

variable {c : Catalog} {d : Disk} {s : CatalogSettings} {n o : Nat} {name : String}

/-- The first `n` categories. -/
def take (c : Catalog) (n : Nat) : Catalog := { c with holdings := c.holdings.take n }

/-- The categories after the first `n`. -/
def drop (c : Catalog) (n : Nat) : Catalog := { c with holdings := c.holdings.drop n }

theorem names_take (c : Catalog) (n : Nat) : (c.take n).names = c.names.take n := List.map_take

theorem counts_take (c : Catalog) (n : Nat) : (c.take n).counts = c.counts.take n := List.map_take

theorem size_take (c : Catalog) (n : Nat) : (c.take n).size = min n c.size := List.length_take

theorem category?_take (h : o < n) : (c.take n).category? o = c.category? o := by
  unfold category? take
  rw [List.getElem?_take_of_lt h]

theorem getElem?_categories (c : Catalog) (o : Nat) : c.categories[o]? = c.category? o := by
  unfold categories names category?
  rw [List.getElem?_map, List.getElem?_zipIdx, List.getElem?_map]
  cases c.holdings[o]? with
  | none => rfl
  | some h => simp

theorem categories_take (c : Catalog) (n : Nat) :
    (c.take n).categories = c.categories.take n := by
  apply List.ext_getElem?
  intro o
  rw [List.getElem?_take]
  split
  · rename_i ho
    rw [getElem?_categories, category?_take ho, getElem?_categories]
  · rw [List.getElem?_eq_none_iff, length_categories, size_take]
    omega

/-- Categories do not share their gaps. -/
theorem gaps_take_append_drop (c : Catalog) (n : Nat) :
    (c.take n).gaps ++ (c.drop n).gaps = c.gaps := by
  unfold gaps take drop
  rw [← List.filterMap_append, List.take_append_drop]

/-- A name that is found among the first categories is found at the same place among all. -/
theorem find?_of_take {category : Category} (h : (c.take n).find? name = some category) :
    category.ordinal < n ∧ c.find? name = some category := by
  obtain ⟨hname, hplace, hfirst⟩ := find?_eq_some_iff.1 h
  have hlt : category.ordinal < n := by
    have hlength := (List.getElem?_eq_some_iff.1 hplace).1
    rw [length_names, size_take] at hlength
    omega
  rw [names_take, List.getElem?_take_of_lt hlt] at hplace
  refine ⟨hlt, find?_eq_some_iff.2 ⟨hname, hplace, fun j hj => ?_⟩⟩
  have hne := hfirst j hj
  rwa [names_take, List.getElem?_take_of_lt (Nat.lt_trans hj hlt)] at hne

/-- Under a limit the first categories are loaded, each as it is without one. -/
theorem load_limited (hc : load d { s with categoryLimit := none } = .ok c) (n : Nat) :
    load d { s with categoryLimit := some n } = .ok (c.take n) := by
  obtain ⟨hdir, hroot, hext, ⟨listed, hlisted, hnames⟩, hscanned⟩ := load_eq_ok_iff.1 hc
  refine load_eq_ok_iff.2 ⟨hdir, hroot, hext, ⟨listed, hlisted, ?_⟩, fun h hh => ?_⟩
  · rw [names_take, hnames]
    rfl
  · obtain ⟨hnumbers, hcount⟩ := hscanned h (List.mem_of_mem_take hh)
    exact ⟨hnumbers, hcount⟩

end Catalog

/-! ## Indexes -/

/-- The first offsets are those of the first counts. -/
theorem offsetsFrom_take (start : Nat) (counts : List Nat) (n : Nat) :
    offsetsFrom start (counts.take n) = (offsetsFrom start counts).take (n + 1) := by
  induction counts generalizing start n with
  | nil => simp [offsetsFrom]
  | cons count counts ih =>
    cases n with
    | zero => simp [offsetsFrom]
    | succ n => rw [List.take_succ_cons, offsetsFrom, offsetsFrom, ih, List.take_succ_cons]

/-- Leading items with a property that end within a prefix are those of the whole list. -/
theorem takeWhile_take {α : Type} {p : α → Bool} {l : List α} {m : Nat}
    (h : ((l.take m).takeWhile p).length < (l.take m).length) :
    (l.take m).takeWhile p = l.takeWhile p := by
  conv_rhs => rw [← List.take_append_drop m l, List.takeWhile_append, if_neg (by omega)]

namespace SampleIndex

/-- Below both totals the second index resolves as the first does, and it locates what the first
locates. -/
structure KeptBy (x y : SampleIndex) : Prop where
  resolve_eq : ∀ i, i < x.total → i < y.total → ∃ sol, x.resolve i = .ok sol ∧ y.resolve i = .ok sol
  locate_eq : ∀ name k i, x.locate name k = .ok i → y.locate name k = .ok i

/-- The solutions are no more than there are sizes. A catalog holds a number for each solution that
it counts, so this is no condition on scanned counts where memory is addressed by sizes. -/
def Unwrapped : SampleIndex → Prop
  | fixedPage x => x.catalog.size * x.pageSize < sizeLimit
  | scanned x => x.catalog.counts.sum < sizeLimit

end SampleIndex

namespace FixedPageIndex

variable {x : FixedPageIndex} {n : Nat}

/-- The pages of the first categories. -/
def take (x : FixedPageIndex) (n : Nat) : FixedPageIndex := ⟨x.catalog.take n, x.pageSize⟩

theorem total_take_le (h : x.catalog.size * x.pageSize < sizeLimit) :
    (x.take n).total ≤ x.total := by
  have hsize : (x.catalog.take n).size ≤ x.catalog.size := by
    rw [Catalog.size_take]
    exact Nat.min_le_right ..
  have hle := Nat.mul_le_mul_right x.pageSize hsize
  calc
    (x.take n).total = (x.catalog.take n).size * x.pageSize := wrap_of_lt (Nat.lt_of_le_of_lt hle h)
    _ ≤ x.catalog.size * x.pageSize := hle
    _ = x.total := (wrap_of_lt h).symm

theorem take_keptBy (x : FixedPageIndex) (n : Nat) :
    (SampleIndex.fixedPage (x.take n)).KeptBy (.fixedPage x) where
  resolve_eq i hi hi' := by
    obtain ⟨d, hd, hresolve⟩ := resolve_of_lt hi
    obtain ⟨d', hd', hresolve'⟩ := resolve_of_lt hi'
    have hlt : i / x.pageSize < n := by
      have hsize : i / x.pageSize < (x.catalog.take n).size := div_lt_of_lt_total hi
      rw [Catalog.size_take] at hsize
      omega
    obtain rfl : d = d' := by
      unfold take at hd
      rw [Catalog.category?_take hlt, hd'] at hd
      exact (Option.some.inj hd).symm
    exact ⟨_, hresolve, hresolve'⟩
  locate_eq name k i hi := by
    have hi : (x.take n).locate name k = .ok i := hi
    show x.locate name k = .ok i
    unfold locate at hi ⊢
    cases hfind : (x.catalog.take n).find? name with
    | none =>
      rw [take, hfind] at hi
      exact absurd hi (by simp)
    | some category =>
      rw [take, hfind] at hi
      rw [(Catalog.find?_of_take hfind).2]
      exact hi

end FixedPageIndex

namespace ScannedIndex

variable {c : Catalog} {n : Nat}

theorem offsets_take (c : Catalog) (n : Nat) :
    (ofCatalog (c.take n)).offsets = (ofCatalog c).offsets.take (n + 1) := by
  unfold ofCatalog
  rw [Catalog.counts_take, offsetsFrom_take]

theorem getElem?_offsets_take {o : Nat} (ho : o < n) :
    (ofCatalog (c.take n)).offsets[o]? = (ofCatalog c).offsets[o]? := by
  rw [offsets_take, List.getElem?_take_of_lt (Nat.lt_succ_of_lt ho)]

theorem total_take_le (h : c.counts.sum < sizeLimit) :
    (ofCatalog (c.take n)).total ≤ (ofCatalog c).total := by
  have hle : (c.take n).counts.sum ≤ c.counts.sum := by
    rw [Catalog.counts_take]
    exact sum_take_le_sum c.counts n
  calc
    (ofCatalog (c.take n)).total = (c.take n).counts.sum :=
      total_eq (x := ofCatalog (c.take n)) rfl (Nat.lt_of_le_of_lt hle h)
    _ ≤ c.counts.sum := hle
    _ = (ofCatalog c).total := (total_eq (x := ofCatalog c) rfl h).symm

theorem resolve_of_length {i o : Nat} {d : Category} (hi : i < (ofCatalog c).total)
    (hlength : ((ofCatalog c).offsets.takeWhile (· ≤ i)).length = o + 1)
    (hd : c.category? o = some d) :
    (ofCatalog c).resolve i =
      .ok (c.solution d (i - (ofCatalog c).offsets[o]?.getD 0 + 1)) := by
  have hcategory : (ofCatalog c).catalog.category? o = some d := hd
  unfold resolve
  rw [if_neg (Nat.not_le.2 hi), hlength, Nat.add_sub_cancel]
  simp only [hcategory]
  rfl

/-- The category of an index below the total is among the first ones, and so is the last offset up
to the index: the offsets that follow do not matter. -/
theorem resolve_take {i : Nat} (hi : i < (ofCatalog (c.take n)).total)
    (hi' : i < (ofCatalog c).total) :
    (ofCatalog (c.take n)).resolve i = (ofCatalog c).resolve i := by
  obtain ⟨o, a, h, hlength, hh, -, -, -⟩ := exists_last_offset hi
  have ho : o < n := by
    have hlt := (List.getElem?_eq_some_iff.1 hh).1
    rw [Catalog.take, List.length_take] at hlt
    omega
  have hd := Catalog.category?_eq_some (Catalog.getElem?_names_of_holding hh)
  have hlength' : ((ofCatalog c).offsets.takeWhile (· ≤ i)).length = o + 1 := by
    have hlt := length_takeWhile_lt hi
    have hsize := length_offsets (c.take n)
    rw [offsets_take] at hlt hsize hlength
    rw [← takeWhile_take (m := n + 1) (by omega), hlength]
  rw [resolve_of_length hi hlength hd, getElem?_offsets_take ho]
  rw [Catalog.category?_take ho] at hd
  exact (resolve_of_length hi' hlength' hd).symm

theorem take_keptBy (c : Catalog) (n : Nat) :
    (SampleIndex.scanned (ofCatalog (c.take n))).KeptBy (.scanned (ofCatalog c)) where
  resolve_eq i hi hi' := by
    obtain ⟨o, k, h, hp⟩ := exists_place hi
    exact ⟨_, hp.resolve_eq, (resolve_take hi hi').symm.trans hp.resolve_eq⟩
  locate_eq name k i hi := by
    have hi : (ofCatalog (c.take n)).locate name k = .ok i := hi
    show (ofCatalog c).locate name k = .ok i
    cases hfind : (c.take n).find? name with
    | none =>
      rw [locate_of_unknown (x := ofCatalog (c.take n)) hfind] at hi
      exact absurd hi (by simp)
    | some d =>
      obtain ⟨ho, hfind'⟩ := Catalog.find?_of_take hfind
      have hcount : (c.take n).counts[d.ordinal]? = c.counts[d.ordinal]? := by
        rw [Catalog.counts_take, List.getElem?_take_of_lt ho]
      rw [locate_of_find? (x := ofCatalog (c.take n)) hfind, getElem?_offsets_take ho,
        show (ofCatalog (c.take n)).catalog.counts[d.ordinal]? = _ from hcount] at hi
      exact (locate_of_find? (x := ofCatalog c) hfind' k).trans hi

end ScannedIndex

namespace SampleIndex

theorem take_keptBy (c : Catalog) (s : CatalogSettings) (n : Nat) :
    (ofCatalog (c.take n) s).KeptBy (ofCatalog c s) := by
  unfold ofCatalog
  cases s.strategy with
  | fixedPage => exact FixedPageIndex.take_keptBy (.ofCatalog c s.pageSize) n
  | scanned => exact ScannedIndex.take_keptBy c n

theorem total_take_le {c : Catalog} {s : CatalogSettings} (h : (ofCatalog c s).Unwrapped)
    (n : Nat) : (ofCatalog (c.take n) s).total ≤ (ofCatalog c s).total := by
  unfold ofCatalog at h ⊢
  cases hs : s.strategy with
  | fixedPage =>
    rw [hs] at h
    exact FixedPageIndex.total_take_le (n := n) h
  | scanned =>
    rw [hs] at h
    exact ScannedIndex.total_take_le h

end SampleIndex

/-- A limit on the categories cuts the catalog and its gaps, and numbers nothing anew: what is below
its total resolves as it does without the limit, and what is located is located there. -/
theorem limit_keeps_samples {d : Disk} {s : CatalogSettings} {c : Catalog}
    (hc : Catalog.load d { s with categoryLimit := none } = .ok c) (n : Nat) :
    Catalog.load d { s with categoryLimit := some n } = .ok (c.take n) ∧
      (c.take n).categories = c.categories.take n ∧ (c.take n).counts = c.counts.take n ∧
      c.gaps = (c.take n).gaps ++ (c.drop n).gaps ∧
      ∃ x y, SampleIndex.load d { s with categoryLimit := some n } = .ok x ∧
        SampleIndex.load d { s with categoryLimit := none } = .ok y ∧
        (y.Unwrapped → x.total ≤ y.total) ∧
        (∀ i, i < x.total → (y.Unwrapped ∨ i < y.total) →
          ∃ sol, x.resolve i = .ok sol ∧ y.resolve i = .ok sol) ∧
        ∀ name k i, x.locate name k = .ok i → y.locate name k = .ok i := by
  have hlimited := Catalog.load_limited hc n
  have hkept := SampleIndex.take_keptBy c s n
  refine ⟨hlimited, c.categories_take n, c.counts_take n, (c.gaps_take_append_drop n).symm,
    SampleIndex.ofCatalog (c.take n) s, SampleIndex.ofCatalog c s,
    SampleIndex.load_of_catalog hlimited, SampleIndex.load_of_catalog hc,
    fun h => SampleIndex.total_take_le h n, fun i hi hwhole => ?_, hkept.locate_eq⟩
  rcases hwhole with h | h
  · exact hkept.resolve_eq i hi (Nat.lt_of_lt_of_le hi (SampleIndex.total_take_le h n))
  · exact hkept.resolve_eq i hi h

/-- The second solution of a category and none of another one. -/
def secondDisk : Disk := (Disk.empty.store "r/a/a-2.edges" (.text "p c\n")).plantDirectory "r/e"

/-- The category is listed again behind the empty one. -/
def secondSettings : CatalogSettings := { root := "r", categories := ["a", "e", "a"] }

def secondCatalog : Catalog := ⟨"r", "edges", [⟨"a", [2], 1⟩, ⟨"e", [], 0⟩, ⟨"a", [2], 1⟩]⟩

theorem limit_keeps_samples_second :
    Catalog.load secondDisk { secondSettings with categoryLimit := none } = .ok secondCatalog ∧
      Catalog.load secondDisk { secondSettings with categoryLimit := some 2 } =
        .ok (secondCatalog.take 2) ∧
      secondCatalog.gaps = (secondCatalog.take 2).gaps ++ (secondCatalog.drop 2).gaps ∧
      ∃ x y, SampleIndex.load secondDisk { secondSettings with categoryLimit := some 2 } = .ok x ∧
        SampleIndex.load secondDisk { secondSettings with categoryLimit := none } = .ok y ∧
        y.Unwrapped ∧ x.total = 1 ∧ y.total = 2 ∧
        (∃ sol, x.resolve 0 = .ok sol ∧ y.resolve 0 = .ok sol) ∧
        x.locate "a" 1 = .ok 0 ∧ y.locate "a" 1 = .ok 0 := by
  have hload : Catalog.load secondDisk { secondSettings with categoryLimit := none } =
      .ok secondCatalog := by decide +kernel
  obtain ⟨hlimited, -, -, hgaps, x, y, hx, hy, -, hresolve, hlocate⟩ :=
    limit_keeps_samples hload 2
  obtain rfl := Except.ok.inj (hx.symm.trans (SampleIndex.load_of_catalog hlimited))
  obtain rfl := Except.ok.inj (hy.symm.trans (SampleIndex.load_of_catalog hload))
  have hunwrapped : (SampleIndex.ofCatalog secondCatalog secondSettings).Unwrapped := by
    show 2 < sizeLimit
    decide
  have hfirst : (SampleIndex.ofCatalog (secondCatalog.take 2) secondSettings).locate "a" 1 =
      .ok 0 := by decide
  exact ⟨hload, hlimited, hgaps, _, _, hx, hy, hunwrapped, by decide, by decide,
    hresolve 0 (by decide) (Or.inl hunwrapped), hfirst, hlocate "a" 1 0 hfirst⟩

end TreeCorpus
