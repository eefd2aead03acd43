import TreeCorpus.Disk.Edit
import TreeCorpus.Proofs.Catalog.Domain
import TreeCorpus.Proofs.Catalog.Scan
import TreeCorpus.Proofs.Label

/-!
# Names of categories

Names identify categories when each category is the one that is found by its name. That is so for
exactly the catalogs without repeated names, hence for every scan of a disk; a listing in the
settings is taken as it stands, repeated names included (`names_identify_of_load`).
-/

namespace TreeCorpus.Catalog

variable {c : Catalog}

/-- A category is found by its name, whether it is given by its ordinal, marked by a label or
reached by an index. -/
structure NamesIdentify (c : Catalog) : Prop where
  find?_name : ∀ o cat, c.category? o = some cat → c.find? cat.name = some cat
  find?_label : ∀ o cat label, c.category? o = some cat → Label.encode o c.size = .ok label →
    (c.find? cat.name).map Category.ordinal = Label.decode label
  find?_solution : ∀ (x : SampleIndex) i sol, x.Formed → x.catalog = c → x.resolve i = .ok sol →
    c.find? sol.category.name = some sol.category

theorem getElem?_names {o : Nat} {cat : Category} (h : c.category? o = some cat) :
    c.names[o]? = some cat.name := by
  unfold category? at h
  obtain ⟨holding, hh, rfl⟩ := Option.map_eq_some_iff.1 h
  exact getElem?_names_of_holding hh

theorem find?_name_of_nodup (hn : c.names.Nodup) {o : Nat} {cat : Category}
    (h : c.category? o = some cat) : c.find? cat.name = some cat := by
  rw [find?_eq_some_of_nodup hn (getElem?_names h), ← ordinal_of_category? h]

/-- A name at two places is found at the first of them only. -/
theorem nodup_of_find?_name
    (h : ∀ o cat, c.category? o = some cat → c.find? cat.name = some cat) : c.names.Nodup := by
  rw [List.nodup_iff_getElem?_ne_getElem?]
  intro i j hij hj heq
  obtain ⟨name, hname⟩ : ∃ name, c.names[j]? = some name := ⟨_, List.getElem?_eq_getElem hj⟩
  have hi := h i _ (category?_eq_some (heq.trans hname))
  have hj := h j _ (category?_eq_some hname)
  have hsame := Option.some.inj (hi.symm.trans hj)
  exact absurd (Category.mk.inj hsame).2 (Nat.ne_of_lt hij)

theorem namesIdentify_iff : c.NamesIdentify ↔ c.names.Nodup := by
  constructor
  · intro h
    exact nodup_of_find?_name h.find?_name
  · intro hn
    refine ⟨fun o cat h => find?_name_of_nodup hn h, fun o cat label h hl => ?_,
      fun x i sol hx hc hsol => ?_⟩
    · rw [find?_name_of_nodup hn h, (Label.of_encode_eq_ok hl).2.decode_eq, Option.map_some,
        ordinal_of_category? h]
    · subst hc
      exact find?_name_of_nodup hn (hx.of_resolve hsol).1.category?_eq

/-! ## Loaded catalogs -/

/-- The names of a loaded catalog identify its categories exactly if they were scanned or the
settings list none of them twice up to the limit. -/
theorem names_identify_of_load {d : Disk} {s : CatalogSettings} (h : load d s = .ok c) :
    c.NamesIdentify ↔ s.categories = [] ∨ (s.limited s.categories).Nodup := by
  rw [namesIdentify_iff, nodup_names_iff h]

/-- Two directories, of which the settings may list one twice. -/
def pairDisk : Disk := (Disk.empty.plantDirectory "r/b").plantDirectory "r/a"

theorem categoryDirectories_pairDisk : categoryDirectories pairDisk "r" = .ok ["a", "b"] := by
  have hroot : pairDisk.resolve "r" = .arrived ["work", "r"] := by decide +kernel
  have hsorted : (pairDisk.entriesAt ["work", "r"]).mergeSort (fun a b => nameLe a.1 b.1) =
      [("a", .directory), ("b", .directory)] := by
    apply List.mergeSort_of_pairwise
    decide +kernel
  unfold categoryDirectories
  rw [hroot]
  simp only [hsorted]
  rfl

theorem names_identify_of_load_scanned :
    load pairDisk { root := "r" } = .ok ⟨"r", "edges", [⟨"a", [], 0⟩, ⟨"b", [], 0⟩]⟩ ∧
      NamesIdentify ⟨"r", "edges", [⟨"a", [], 0⟩, ⟨"b", [], 0⟩]⟩ := by
  have hload : load pairDisk { root := "r" } =
      .ok ⟨"r", "edges", [⟨"a", [], 0⟩, ⟨"b", [], 0⟩]⟩ := by
    refine load_eq_ok_iff.2
      ⟨by decide +kernel, rfl, rfl, ⟨_, categoryDirectories_pairDisk, rfl⟩, ?_⟩
    simp only [List.forall_mem_cons]
    exact ⟨⟨by decide +kernel, rfl⟩, ⟨by decide +kernel, rfl⟩,
      fun h hh => absurd hh List.not_mem_nil⟩
  exact ⟨hload, (names_identify_of_load hload).2 (Or.inl rfl)⟩

/-- Settings that are in range may list a category twice. The second one is not found by its name,
and its label marks another class than the one found. -/
theorem listed_twice :
    let s : Config := { catalog := { root := "r", categories := ["a", "a"] } }
    let c : Catalog := ⟨"r", "edges", [⟨"a", [], 0⟩, ⟨"a", [], 0⟩]⟩
    s.validate = .ok s ∧ load pairDisk s.catalog = .ok c ∧
      c.category? 1 = some ⟨"a", 1⟩ ∧ c.find? "a" = some ⟨"a", 0⟩ ∧
      Label.encode 1 c.size = .ok [0, 1] ∧ Label.decode [0, 1] = some 1 ∧ ¬ c.NamesIdentify := by
  intro s c
  have hload : load pairDisk s.catalog = .ok c := by decide +kernel
  refine ⟨by decide +kernel, hload, rfl, rfl, rfl, rfl, ?_⟩
  intro h
  exact absurd (h.find?_name 1 ⟨"a", 1⟩ rfl) (by decide)

end TreeCorpus.Catalog
