import Mathlib.Tactic.ByContra
import TreeCorpus.Proofs.Catalog.Numbering

/-!
# The domain of a sample index

An index made from a catalog resolves exactly the numbers below its total, also where the total
wraps (`Formed.exists_resolve_iff`). What it resolves is a solution of the catalog, and its number
is a size (`Formed.of_resolve`); with scanned counts the number is at most the count of its category
(`ScannedIndex.exists_place`).
-/

namespace TreeCorpus

open Number

/-- The solution stands in the catalog, with a number that an index can have. -/
structure Catalog.Holds (c : Catalog) (s : Solution) : Prop where
  category?_eq : c.category? s.category.ordinal = some s.category
  one_le_number : 1 ≤ s.number
  path_eq : s.path = c.solutionPath s.category.name s.number

theorem Catalog.ordinal_of_category? {c : Catalog} {o : Nat} {d : Category}
    (h : c.category? o = some d) : d.ordinal = o := by
  unfold category? at h
  obtain ⟨_, _, rfl⟩ := Option.map_eq_some_iff.1 h
  rfl

theorem Catalog.holds_solution {c : Catalog} {o k : Nat} {d : Category}
    (h : c.category? o = some d) (hk : 1 ≤ k) : c.Holds (c.solution d k) where
  category?_eq := by
    show c.category? d.ordinal = some d
    rw [Catalog.ordinal_of_category? h, h]
  one_le_number := hk
  path_eq := rfl

theorem Catalog.getElem?_names_of_holding {c : Catalog} {o : Nat} {h : Holding}
    (hh : c.holdings[o]? = some h) : c.names[o]? = some h.name := by
  unfold names
  rw [List.getElem?_map, hh]
  rfl

theorem Catalog.getElem?_counts_of_holding {c : Catalog} {o : Nat} {h : Holding}
    (hh : c.holdings[o]? = some h) :
    c.counts[o]? = some h.count := by
  unfold counts
  rw [List.getElem?_map, hh]
  rfl

/-! ## Pages of one size -/

namespace FixedPageIndex

theorem total_lt (x : FixedPageIndex) : x.total < sizeLimit := wrap_lt _

/-- An index below the total falls on a page of a category, also if the total has wrapped. -/
theorem div_lt_of_lt_total {x : FixedPageIndex} {i : Nat} (h : i < x.total) :
    i / x.pageSize < x.catalog.size := by
  have hle : x.total ≤ x.catalog.size * x.pageSize := Nat.mod_le _ _
  have hlt : i < x.catalog.size * x.pageSize := by omega
  have hpos : 0 < x.pageSize := by
    rcases Nat.eq_zero_or_pos x.pageSize with h0 | h0
    · rw [h0, Nat.mul_zero] at hlt
      omega
    · exact h0
  exact (Nat.div_lt_iff_lt_mul hpos).2 hlt

theorem resolve_of_lt {x : FixedPageIndex} {i : Nat} (h : i < x.total) :
    ∃ d, x.catalog.category? (i / x.pageSize) = some d ∧
      x.resolve i = .ok (x.catalog.solution d (i % x.pageSize + 1)) := by
  obtain ⟨d, hd⟩ := Option.isSome_iff_exists.1
    ((x.catalog.category?_isSome _).2 (div_lt_of_lt_total h))
  refine ⟨d, hd, ?_⟩
  unfold resolve
  rw [hd]
  exact if_pos h

end FixedPageIndex

/-! ## Scanned counts -/

theorem offsetsFrom_lt {start o : Nat} (hs : start < sizeLimit) (counts : List Nat)
    (ho : o ∈ offsetsFrom start counts) : o < sizeLimit := by
  induction counts generalizing start with
  | nil =>
    rw [offsetsFrom, List.mem_singleton] at ho
    omega
  | cons n ns ih =>
    rcases List.mem_cons.1 ho with rfl | ho
    · exact hs
    · exact ih (wrap_lt _) ho

/-- The leading items with a property end where an item without it stands. -/
theorem getElem?_length_takeWhile {α : Type} {p : α → Bool} {l : List α}
    (h : (l.takeWhile p).length < l.length) :
    ∃ b, l[(l.takeWhile p).length]? = some b ∧ p b = false := by
  induction l with
  | nil => exact absurd h (Nat.not_lt_zero _)
  | cons a l ih =>
    cases ha : p a with
    | false => exact ⟨a, by simp [ha], ha⟩
    | true =>
      rw [List.takeWhile_cons_of_pos ha, List.length_cons] at h ⊢
      exact ih (Nat.lt_of_succ_lt_succ h)

/-- The leading items with a property have it. -/
theorem of_lt_length_takeWhile {α : Type} {p : α → Bool} {l : List α} {j : Nat} {a : α}
    (hj : j < (l.takeWhile p).length) (ha : l[j]? = some a) : p a = true := by
  have hsplit : l.takeWhile p ++ l.dropWhile p = l := List.takeWhile_append_dropWhile
  rw [← hsplit, List.getElem?_append_left hj] at ha
  exact List.all_eq_true.1 List.all_takeWhile a (List.mem_of_getElem? ha)

/-- An offset and the count after it make the next offset. -/
theorem getElem?_offsetsFrom_succ (start : Nat) {o n : Nat} {counts : List Nat}
    (hn : counts[o]? = some n) :
    ∃ a, (offsetsFrom start counts)[o]? = some a ∧
      (offsetsFrom start counts)[o + 1]? = some (wrap (a + n)) := by
  induction counts generalizing start o with
  | nil => exact absurd hn (by simp)
  | cons m ms ih =>
    cases o with
    | zero =>
      obtain rfl : m = n := Option.some.inj hn
      refine ⟨start, rfl, ?_⟩
      cases ms <;> rfl
    | succ o => exact ih (wrap (start + m)) hn

namespace ScannedIndex

variable {c : Catalog} {i o k : Nat} {h : Holding}

theorem getLast?_offsets (c : Catalog) :
    (ofCatalog c).offsets.getLast? = some (ofCatalog c).total := by
  have hne : (ofCatalog c).offsets ≠ [] := by
    show offsetsFrom 0 c.counts ≠ []
    cases c.counts <;> exact List.cons_ne_nil _ _
  unfold total
  rw [List.getLast?_eq_some_getLast hne]
  rfl

theorem total_lt (c : Catalog) : (ofCatalog c).total < sizeLimit :=
  offsetsFrom_lt (by decide) c.counts (List.mem_of_getLast? (getLast?_offsets c))

theorem length_offsets (c : Catalog) : (ofCatalog c).offsets.length = c.size + 1 := by
  show (offsetsFrom 0 c.counts).length = _
  rw [length_offsetsFrom, c.length_counts]

/-- The offsets that are at most an index below the total are not all of them. -/
theorem length_takeWhile_lt (h : i < (ofCatalog c).total) :
    ((ofCatalog c).offsets.takeWhile (· ≤ i)).length ≤ c.size := by
  have hlen := length_offsets c
  have hle := (List.takeWhile_prefix (l := (ofCatalog c).offsets) (· ≤ i)).length_le
  by_contra hgt
  have hall : (ofCatalog c).offsets.takeWhile (· ≤ i) = (ofCatalog c).offsets :=
    (List.takeWhile_prefix _).eq_of_length (by omega)
  have hmem := List.mem_of_getLast? (getLast?_offsets c)
  rw [← hall] at hmem
  have := (List.all_eq_true.1 List.all_takeWhile) _ hmem
  rw [decide_eq_true_iff] at this
  omega

/-- The last category that starts at or before an index below the total ends after it, also if the
total has wrapped. -/
theorem exists_last_offset (hi : i < (ofCatalog c).total) :
    ∃ o a, ∃ h : Holding, ((ofCatalog c).offsets.takeWhile (· ≤ i)).length = o + 1 ∧
      c.holdings[o]? = some h ∧ (ofCatalog c).offsets[o]? = some a ∧ a ≤ i ∧ i < a + h.count := by
  have hsize := length_takeWhile_lt hi
  have hlen := length_offsets c
  have hfirst : (ofCatalog c).offsets[0]? = some 0 := by
    show (offsetsFrom 0 c.counts)[0]? = some 0
    cases c.counts <;> rfl
  obtain ⟨b, hb, hbi⟩ := getElem?_length_takeWhile (p := (· ≤ i)) (l := (ofCatalog c).offsets)
    (by omega)
  have hpos : ((ofCatalog c).offsets.takeWhile (· ≤ i)).length ≠ 0 := by
    intro hzero
    rw [hzero, hfirst] at hb
    obtain rfl := Option.some.inj hb
    exact absurd hbi (by simp)
  obtain ⟨o, ho⟩ := Nat.exists_eq_succ_of_ne_zero hpos
  have hlt : o < c.holdings.length := by
    show o < c.size
    omega
  have hh : c.holdings[o]? = some c.holdings[o] := List.getElem?_eq_getElem hlt
  obtain ⟨a, ha, hnext⟩ := getElem?_offsetsFrom_succ 0 (Catalog.getElem?_counts_of_holding hh)
  refine ⟨o, a, c.holdings[o], ho, hh, ha, ?_, ?_⟩
  · exact of_decide_eq_true (of_lt_length_takeWhile (p := (· ≤ i))
      (l := (ofCatalog c).offsets) (by omega) ha)
  · rw [ho] at hb
    obtain rfl : wrap (a + c.holdings[o].count) = b := Option.some.inj (hnext.symm.trans hb)
    have hwrap : wrap (a + c.holdings[o].count) ≤ a + c.holdings[o].count := Nat.mod_le _ _
    have hlt : ¬ wrap (a + c.holdings[o].count) ≤ i := of_decide_eq_false hbi
    omega

/-- Index `i` is number `k` of the category that holds `h` at place `o`. -/
structure Place (c : Catalog) (i o k : Nat) (h : Holding) : Prop where
  holding_eq : c.holdings[o]? = some h
  one_le : 1 ≤ k
  le_count : k ≤ h.count
  index_eq : i + 1 = (ofCatalog c).offsets[o]?.getD 0 + k
  resolve_eq : (ofCatalog c).resolve i = .ok (c.solution ⟨h.name, o⟩ k)

theorem exists_place (hi : i < (ofCatalog c).total) : ∃ o k h, Place c i o k h := by
  obtain ⟨o, a, h, ho, hh, ha, hai, hib⟩ := exists_last_offset hi
  have hcategory := Catalog.category?_eq_some (Catalog.getElem?_names_of_holding hh)
  refine ⟨o, i - a + 1, h, hh, by omega, by omega, ?_, ?_⟩
  · rw [ha, Option.getD_some]
    omega
  · unfold resolve
    rw [if_neg (by omega), ho, Nat.add_sub_cancel, show (ofCatalog c).catalog = c from rfl]
    simp only [hcategory, ha, Option.getD_some]

/-- What an index resolves to is the solution of its place. -/
theorem exists_place_of_resolve {sol : Solution} (hsol : (ofCatalog c).resolve i = .ok sol) :
    ∃ o k h, Place c i o k h ∧ sol = c.solution ⟨h.name, o⟩ k := by
  have hi : i < (ofCatalog c).total := by
    by_contra hle
    rw [resolve_of_le (by omega)] at hsol
    exact absurd hsol (by simp)
  obtain ⟨o, k, h, hp⟩ := exists_place hi
  exact ⟨o, k, h, hp, Except.ok.inj (hsol.symm.trans hp.resolve_eq)⟩

end ScannedIndex

/-! ## Both kinds -/

namespace SampleIndex

theorem load_of_catalog {d : Disk} {s : CatalogSettings} {c : Catalog}
    (h : Catalog.load d s = .ok c) : load d s = .ok (ofCatalog c s) := by
  unfold load
  rw [h]
  rfl

/-- The index is made from a catalog. -/
def Formed (x : SampleIndex) : Prop := ∃ c s, x = ofCatalog c s

theorem formed_of_load {d : Disk} {s : CatalogSettings} {x : SampleIndex}
    (h : load d s = .ok x) : x.Formed := by
  unfold load at h
  cases hc : Catalog.load d s with
  | error e =>
    rw [hc] at h
    exact absurd h (by simp [Except.map])
  | ok c =>
    rw [hc] at h
    exact ⟨c, s, (Except.ok.inj h).symm⟩

namespace Formed

variable {x : SampleIndex} {i : Nat} {s : Solution}

theorem total_lt (h : x.Formed) : x.total < sizeLimit := by
  obtain ⟨c, settings, rfl⟩ := h
  unfold ofCatalog
  cases settings.strategy with
  | fixedPage => exact FixedPageIndex.total_lt _
  | scanned => exact ScannedIndex.total_lt c

/-- The solution of an index below the total; its number is at most one above the index. -/
theorem resolve_of_lt (h : x.Formed) (hi : i < x.total) :
    ∃ s, x.resolve i = .ok s ∧ x.catalog.Holds s ∧ s.number ≤ i + 1 := by
  obtain ⟨c, settings, rfl⟩ := h
  unfold ofCatalog at hi ⊢
  cases hs : settings.strategy with
  | fixedPage =>
    rw [hs] at hi
    obtain ⟨d, hd, hr⟩ := FixedPageIndex.resolve_of_lt hi
    refine ⟨_, hr, Catalog.holds_solution hd (Nat.succ_pos _), ?_⟩
    exact Nat.succ_le_succ (Nat.mod_le _ _)
  | scanned =>
    rw [hs] at hi
    obtain ⟨o, k, h, hp⟩ := ScannedIndex.exists_place hi
    have hcategory := Catalog.category?_eq_some (Catalog.getElem?_names_of_holding hp.holding_eq)
    have hindex := hp.index_eq
    refine ⟨_, hp.resolve_eq, Catalog.holds_solution hcategory hp.one_le, ?_⟩
    show k ≤ i + 1
    omega

theorem resolve_of_le (h : x.Formed) (hi : x.total ≤ i) :
    x.resolve i = .error (.indexOutOfRange i x.total) := by
  obtain ⟨c, settings, rfl⟩ := h
  unfold ofCatalog at hi ⊢
  cases hs : settings.strategy with
  | fixedPage =>
    rw [hs] at hi
    exact FixedPageIndex.resolve_of_le hi
  | scanned =>
    rw [hs] at hi
    exact ScannedIndex.resolve_of_le hi

/-- An index has a solution exactly when it is below the total. -/
theorem exists_resolve_iff (h : x.Formed) : (∃ s, x.resolve i = .ok s) ↔ i < x.total := by
  constructor
  · rintro ⟨s, hs⟩
    by_contra hi
    rw [h.resolve_of_le (by omega)] at hs
    exact absurd hs (by simp)
  · intro hi
    obtain ⟨s, hs, -⟩ := h.resolve_of_lt hi
    exact ⟨s, hs⟩

/-- What an index resolves to is a solution of the catalog, and the index and its number are
sizes. -/
theorem of_resolve (h : x.Formed) (hs : x.resolve i = .ok s) :
    x.catalog.Holds s ∧ i < sizeLimit ∧ s.number < sizeLimit := by
  have hi := h.exists_resolve_iff.1 ⟨s, hs⟩
  have hlt := h.total_lt
  obtain ⟨t, ht, hholds, hnum⟩ := h.resolve_of_lt hi
  obtain rfl : t = s := Except.ok.inj (ht.symm.trans hs)
  exact ⟨hholds, by omega, by omega⟩

end Formed

theorem catalog_ofCatalog (c : Catalog) (s : CatalogSettings) : (ofCatalog c s).catalog = c := by
  unfold ofCatalog
  cases s.strategy <;> rfl

/-- No number is located in a category that the catalog does not have. -/
theorem locate_eq_unknown {x : SampleIndex} {name : String} (h : name ∉ x.catalog.names)
    (number : Nat) : x.locate name number = .error (.unknownCategory name) := by
  cases x <;>
  · have hfind := Catalog.find?_eq_none_iff.2 h
    simp only [catalog] at hfind
    simp only [locate, FixedPageIndex.locate, ScannedIndex.locate, hfind]

/-- In a category of the catalog only the number can be at fault. -/
theorem of_locate_eq_error {x : SampleIndex} {name : String} {number : Nat} {e : Error}
    (hname : name ∈ x.catalog.names) (h : x.locate name number = .error e) :
    ∃ count, e = .indexOutOfRange number count := by
  have hfind : x.catalog.find? name ≠ none := mt Catalog.find?_eq_none_iff.1 (not_not_intro hname)
  obtain ⟨category, hcategory⟩ := Option.ne_none_iff_exists'.1 hfind
  cases x <;>
  · simp only [catalog] at hcategory
    simp only [locate, FixedPageIndex.locate, ScannedIndex.locate, hcategory] at h
    split at h
    · exact ⟨_, (Except.error.inj h).symm⟩
    · exact absurd h (by simp)

end SampleIndex

end TreeCorpus
