import TreeCorpus.Proofs.Graph.Annotated
import TreeCorpus.Proofs.Graph.EdgeText
import TreeCorpus.Proofs.Graph.FeatureTable
import TreeCorpus.Proofs.Number.Literal
import TreeCorpus.Proofs.Outcome

/-!
# Rows of a feature table

A row is read back as the name and the values it was written from, unless the name holds a colon:
the name of a row ends at its first colon (`readRow_rowText`, `colon_notMem_of_readRow`). A text with
a row for each node of a graph therefore annotates the graph exactly when no node name holds a colon
(`build_of_rows`).
-/

namespace TreeCorpus

open Number

namespace FeatureTable

variable {t t' : FeatureTable} {name : String} {ws : List String} {values : List Single}

/-- A row as it is written: the name, a colon and the words of the values. -/
def rowText (name : String) (ws : List String) : String := name ++ ":" ++ Text.spaced ws

@[simp] theorem toList_rowText (name : String) (ws : List String) :
    (rowText name ws).toList = name.toList ++ ':' :: (Text.spaced ws).toList := by
  simp [rowText, String.toList_append]

/-! ## One row -/

/-- A row of words starts and ends with no blank. -/
theorem trim_rowText (hname : Text.IsWord name) (hws : ∀ w ∈ ws, Text.IsWord w) :
    Text.trim (rowText name ws) = rowText name ws := by
  apply Text.trim_eq_self
  · intro c hc
    rw [toList_rowText, List.head?_append_of_ne_nil _ hname.ne_nil] at hc
    exact hname.not_blank c (List.mem_of_mem_head? hc)
  · intro c hc
    rw [toList_rowText, List.getLast?_append_of_ne_nil _ (List.cons_ne_nil _ _)] at hc
    rcases List.eq_nil_or_concat ws with rfl | ⟨ws, w, rfl⟩
    · obtain rfl : ':' = c := Option.some.inj hc
      decide
    · have hw := hws w (by simp)
      have hspaced : (Text.spaced (ws.concat w)).toList =
          (Text.spaced ws).toList ++ ' ' :: w.toList := by
        simp [Text.spaced, String.join_append, String.toList_append]
      rw [hspaced, ← List.cons_append, List.append_cons,
        List.getLast?_append_of_ne_nil _ hw.ne_nil] at hc
      exact hw.not_blank c (List.mem_of_getLast? hc)

theorem isEmpty_rowText (name : String) (ws : List String) : (rowText name ws).isEmpty = false := by
  rw [String.isEmpty_eq_false_iff]
  intro he
  have hlist := congrArg String.toList he
  rw [toList_rowText] at hlist
  exact absurd hlist (by simp)

theorem readValues_eq_ok (h : ws.map Binary.ofText? = values.map some) :
    readValues ws = .ok values := by
  induction ws generalizing values with
  | nil =>
    obtain rfl := List.map_eq_nil_iff.1 h.symm
    rfl
  | cons w ws ih =>
    obtain ⟨v, vs, rfl, hv, hvs⟩ := List.map_eq_cons_iff.1 h.symm
    unfold readValues
    simp only [← hv, ih hvs.symm]
    rfl

/-- The words of values that were read are words. -/
theorem isWord_of_map_ofText? (h : ws.map Binary.ofText? = values.map some) :
    ∀ w ∈ ws, Text.IsWord w := by
  intro w hw
  have hmem : Binary.ofText? w ∈ values.map some := h ▸ List.mem_map_of_mem hw
  obtain ⟨v, -, hv⟩ := List.mem_map.1 hmem
  exact isWord_of_ofText? hv.symm

/-- A written row is read back if its name holds no colon. -/
theorem readRow_rowText (hname : Text.IsWord name) (hcolon : ':' ∉ name.toList)
    (hvalues : ws.map Binary.ofText? = values.map some) :
    readRow (rowText name ws) = .ok (name, values) := by
  have hbefore : ∀ c ∈ name.toList, (c != ':') = true := by
    intro c hc
    rw [bne_iff_ne]
    rintro rfl
    exact hcolon hc
  have hdrop : (rowText name ws).toList.dropWhile (· != ':') = ':' :: (Text.spaced ws).toList := by
    rw [toList_rowText, List.dropWhile_append_of_pos hbefore]
    rfl
  have htake : (rowText name ws).toList.takeWhile (· != ':') = name.toList := by
    rw [toList_rowText, List.takeWhile_append_of_pos hbefore]
    simp
  have hvalid : ¬ (name.isEmpty || name.toList.any Text.isBlank) = true := by
    rw [Bool.or_eq_true, not_or, List.any_eq_true]
    constructor
    · rw [String.isEmpty_iff]
      rintro rfl
      exact hname.ne_nil rfl
    · rintro ⟨c, hc, hblank⟩
      rw [hname.not_blank c hc] at hblank
      exact absurd hblank (by decide)
  unfold readRow
  simp only [hdrop, htake, String.ofList_toList, hname.trim_eq, if_neg hvalid,
    Text.words_spaced (isWord_of_map_ofText? hvalues), readValues_eq_ok hvalues]
  rfl

/-- The name of a row ends at its first colon. -/
theorem colon_notMem_of_readRow {line : String} (h : readRow line = .ok (name, values)) :
    ':' ∉ name.toList := by
  intro hcolon
  unfold readRow at h
  dsimp only at h
  split at h
  · exact absurd h (by simp)
  · split at h
    · exact absurd h (by simp)
    · obtain ⟨vs, -, he⟩ := map_eq_ok_iff.1 h
      obtain ⟨rfl, rfl⟩ := Prod.mk.inj he
      have hmem := Text.mem_of_mem_trim hcolon
      rw [String.toList_ofList] at hmem
      exact absurd (List.all_eq_true.1 List.all_takeWhile _ hmem) (by decide)

/-! ## All rows -/

/-- Inserts rows one after another. -/
def insertRows (t : FeatureTable) (rows : List (String × List Single)) : FeatureTable :=
  { t with rows := rows.foldl (fun m r => m.insert r.1 r.2) t.rows }

/-- Lines that are rows of the dimension are inserted one after another. -/
theorem readLines_map {α : Type} {items : List α} {line : α → String}
    {row : α → String × List Single} {n : Nat}
    (hempty : ∀ a ∈ items, (Text.trim (line a)).isEmpty = false)
    (hrow : ∀ a ∈ items, readRow (Text.trim (line a)) = .ok (row a))
    (hlength : ∀ a ∈ items, (row a).2.length = t.dimension) :
    t.readLines n (items.map line) = .ok (t.insertRows (items.map row)) := by
  induction items generalizing t n with
  | nil => rfl
  | cons a items ih =>
    obtain ⟨hempty, hempties⟩ := List.forall_mem_cons.1 hempty
    obtain ⟨hrow, hrows⟩ := List.forall_mem_cons.1 hrow
    obtain ⟨hlength, hlengths⟩ := List.forall_mem_cons.1 hlength
    have hline : t.readLine n (line a) =
        .ok { t with rows := t.rows.insert (row a).1 (row a).2 } := by
      unfold readLine
      simp only [hempty, hrow, insert, hlength, ne_eq, not_true_eq_false, Bool.false_eq_true,
        if_false]
    rw [List.map_cons, readLines, hline]
    exact ih hempties hrows hlengths

theorem getElem?_foldl_insert_of_not_mem {rows : List (String × List Single)} {key : String}
    (h : key ∉ rows.map Prod.fst) (m : Std.HashMap String (List Single)) :
    (rows.foldl (fun m r => m.insert r.1 r.2) m)[key]? = m[key]? := by
  induction rows generalizing m with
  | nil => rfl
  | cons r rows ih =>
    rw [List.map_cons, List.mem_cons, not_or] at h
    rw [List.foldl_cons, ih h.2, Std.HashMap.getElem?_insert,
      if_neg fun e => h.1 (eq_of_beq e).symm]

/-- Of rows with distinct names each is found under its own. -/
theorem lookup_insertRows {rows : List (String × List Single)} (hn : (rows.map Prod.fst).Nodup)
    {r : String × List Single} (hr : r ∈ rows) : (t.insertRows rows).lookup r.1 = some r.2 := by
  show (rows.foldl (fun m r => m.insert r.1 r.2) t.rows)[r.1]? = some r.2
  generalize t.rows = m
  induction rows generalizing m with
  | nil => exact absurd hr List.not_mem_nil
  | cons r' rows ih =>
    rw [List.map_cons, List.nodup_cons] at hn
    rcases List.mem_cons.1 hr with rfl | hr
    · rw [List.foldl_cons, getElem?_foldl_insert_of_not_mem hn.1,
        Std.HashMap.getElem?_insert_self]
    · exact ih hn.2 hr _

/-- Reading a line leaves what is found under a name with a colon. -/
theorem lookup_of_readLine {line : String} {n : Nat} (h : t.readLine n line = .ok t')
    (hcolon : ':' ∈ name.toList) : t'.lookup name = t.lookup name := by
  unfold readLine at h
  dsimp only at h
  split at h
  · rw [Except.ok.inj h]
  · split at h
    · rename_i node values hrow
      have hne : node ≠ name := by
        rintro rfl
        exact colon_notMem_of_readRow hrow hcolon
      unfold insert at h
      split at h
      · exact absurd h (by simp)
      · obtain rfl := Except.ok.inj h
        show (t.rows.insert node values)[name]? = t.rows[name]?
        rw [Std.HashMap.getElem?_insert, if_neg fun e => hne (eq_of_beq e)]
    · exact absurd h (by simp)

theorem lookup_of_readLines {lines : List String} {n : Nat} (h : t.readLines n lines = .ok t')
    (hcolon : ':' ∈ name.toList) : t'.lookup name = t.lookup name := by
  induction lines generalizing t n with
  | nil => rw [Except.ok.inj h]
  | cons line lines ih =>
    obtain ⟨t₁, hline, hrest⟩ := readLines_cons_eq_ok_iff.1 h
    rw [ih hrest, lookup_of_readLine hline hcolon]

/-- A table that is read from a text has no row under a name with a colon. -/
theorem lookup_eq_none_of_parse {text source : String} {dimension : Nat}
    (h : parse text dimension source = .ok t) (hcolon : ':' ∈ name.toList) :
    t.lookup name = none := by
  rw [lookup_of_readLines (mapError_eq_ok_iff.1 h) hcolon]
  exact Std.HashMap.getElem?_empty

end FeatureTable

namespace Graph

variable {text origin table : String} {g : Graph} {dimension : Nat}
  {rows : List (String × List String)} {vectors : String → List Single}

/-- One row a node name, with words that read as the values of its vector. -/
structure RowsFor (rows : List (String × List String)) (names : List String)
    (vectors : String → List Single) (dimension : Nat) : Prop where
  names_perm : (rows.map Prod.fst).Perm names
  reads : ∀ r ∈ rows, r.2.map Binary.ofText? = (vectors r.1).map some
  length_eq : ∀ r ∈ rows, r.2.length = dimension

/-- Rows whose names hold no colon are read as the table of their vectors. -/
theorem exists_table {names : List String} (hrows : RowsFor rows names vectors dimension)
    (hwords : ∀ id ∈ names, Text.IsWord id) (hnodup : names.Nodup)
    (hcolon : ∀ id ∈ names, ':' ∉ id.toList)
    (hlines : Text.lines table = rows.map fun r => FeatureTable.rowText r.1 r.2) (source : String) :
    ∃ t, FeatureTable.parse table dimension source = .ok t ∧
      ∀ id ∈ names, t.lookup id = some (vectors id) ∧ (vectors id).length = dimension := by
  have hmem : ∀ r ∈ rows, r.1 ∈ names := fun r hr =>
    hrows.names_perm.subset (List.mem_map_of_mem hr)
  have htrim : ∀ r ∈ rows, Text.trim (FeatureTable.rowText r.1 r.2) =
      FeatureTable.rowText r.1 r.2 := fun r hr =>
    FeatureTable.trim_rowText (hwords r.1 (hmem r hr))
      (FeatureTable.isWord_of_map_ofText? (hrows.reads r hr))
  have hlength : ∀ r ∈ rows, (vectors r.1).length = dimension := by
    intro r hr
    have h := congrArg List.length (hrows.reads r hr)
    rw [List.length_map, List.length_map, hrows.length_eq r hr] at h
    exact h.symm
  have hread : (FeatureTable.empty dimension source).readLines 1 (Text.lines table) =
      .ok ((FeatureTable.empty dimension source).insertRows
        (rows.map fun r => (r.1, vectors r.1))) := by
    rw [hlines]
    apply FeatureTable.readLines_map
    · intro r hr
      rw [htrim r hr, FeatureTable.isEmpty_rowText]
    · intro r hr
      rw [htrim r hr]
      exact FeatureTable.readRow_rowText (hwords r.1 (hmem r hr)) (hcolon r.1 (hmem r hr))
        (hrows.reads r hr)
    · exact hlength
  refine ⟨_, mapError_eq_ok_iff.2 hread, fun id hid => ?_⟩
  obtain ⟨r, hr, rfl⟩ := List.mem_map.1 (hrows.names_perm.symm.subset hid)
  have hdistinct : ((rows.map fun r => (r.1, vectors r.1)).map Prod.fst).Nodup := by
    rw [List.map_map]
    exact hrows.names_perm.nodup_iff.2 hnodup
  exact ⟨FeatureTable.lookup_insertRows hdistinct (List.mem_map_of_mem hr), hlength r hr⟩

/-- A text with one row for each node of an edge list annotates its graph with the vectors of the
rows if no node name holds a colon. If one does, no table that is read from a text annotates it. -/
theorem build_of_rows (source : String) (hparse : Graph.parse text origin = .ok g)
    (hrows : RowsFor rows g.ids vectors dimension)
    (hlines : Text.lines table = rows.map fun r => FeatureTable.rowText r.1 r.2) :
    ((∀ id ∈ g.ids, ':' ∉ id.toList) →
      ∃ t g', FeatureTable.parse table dimension source = .ok t ∧
        Graph.build text origin t dimension = .ok g' ∧ g'.edges = g.edges ∧ g'.ids = g.ids ∧
        ∀ n ∈ g'.nodes, n.features = vectors n.id) ∧
    ((∃ id ∈ g.ids, ':' ∈ id.toList) → ∀ table' dimension' source' t,
      FeatureTable.parse table' dimension' source' = .ok t →
        ∀ size g', Graph.build text origin t size ≠ .ok g') := by
  constructor
  · intro hcolon
    obtain ⟨t, ht, hlookup⟩ := exists_table hrows (fun id hid => isWord_of_mem_ids hparse hid)
      (nodup_ids g) hcolon hlines source
    obtain ⟨g', hg'⟩ : ∃ g', g.annotate t dimension origin = .ok g' :=
      exists_annotate fun id hid => ⟨_, hlookup id hid⟩
    have hannotates := annotates_of_annotate hg'
    refine ⟨t, g', ht, build_eq_ok_iff.2 ⟨g, hparse, hg'⟩, hannotates.edges_eq, hannotates.ids_eq,
      fun n hn => ?_⟩
    have hid : n.id ∈ g.ids := by
      rw [← hannotates.ids_eq]
      exact List.mem_map_of_mem (Array.mem_toList_iff.2 hn)
    exact Option.some.inj ((hannotates.features_eq n hn).1.symm.trans (hlookup n.id hid).1)
  · rintro ⟨id, hid, hcolon⟩ table' dimension' source' t ht size g' hbuild
    obtain ⟨g₁, hg₁, hg'⟩ := build_eq_ok_iff.1 hbuild
    obtain rfl := Except.ok.inj (hparse.symm.trans hg₁)
    have hrow := (annotates_of_annotate hg').map_lookup_ids
    have hmem : none ∈ g.ids.map t.lookup :=
      List.mem_map.2 ⟨id, hid, FeatureTable.lookup_eq_none_of_parse ht hcolon⟩
    rw [hrow] at hmem
    exact absurd hmem (by simp)

/-! ## Two edge lists -/

/-- The vectors that the words of some rows read as. -/
def vectorsOf (rows : List (String × List String)) (id : String) : List Single :=
  ((rows.lookup id).getD []).filterMap Binary.ofText?

theorem exists_parse (hlists : ListsEdges (Graph.rows text)) {names : List String}
    (hnames : (Graph.rows text).flatten.eraseDups = names) (origin : String) :
    ∃ g, Graph.parse text origin = .ok g ∧ g.ids = names :=
  have hparse := parse_of_listsEdges origin hlists
  ⟨_, hparse, (ids_of_parse hparse).trans hnames⟩

/-- A list of edges is built with every table that has a row for each of its words. -/
theorem exists_build {t : FeatureTable} (hlists : ListsEdges (Graph.rows text))
    (h : ∀ id ∈ (Graph.rows text).flatten, ∃ v, t.lookup id = some v ∧ v.length = dimension)
    (origin : String) : ∃ g, Graph.build text origin t dimension = .ok g := by
  obtain ⟨g₀, hparse, hids⟩ := exists_parse hlists rfl origin
  obtain ⟨g, hg⟩ : ∃ g, g₀.annotate t dimension origin = .ok g :=
    exists_annotate fun id hid => h id (List.mem_eraseDups.1 (hids ▸ hid))
  exact ⟨g, build_eq_ok_iff.2 ⟨g₀, hparse, hg⟩⟩

/-- Names of any signs but the colon, with rows in another order than the nodes. -/
theorem build_of_rows_signs :
    let rows := [("x#", ["1", "-2.5"]), ("for", [".5", "1e3"]), ("é", ["0", "7"])]
    ∃ g t g', Graph.parse "for é\né x#" "mem" = .ok g ∧ RowsFor rows g.ids (vectorsOf rows) 2 ∧
      FeatureTable.parse "x#: 1 -2.5\nfor: .5 1e3\né: 0 7\n" 2 "table" = .ok t ∧
      Graph.build "for é\né x#" "mem" t 2 = .ok g' ∧
      ∀ n ∈ g'.nodes, n.features = vectorsOf rows n.id := by
  intro rows
  have hwords : Graph.rows "for é\né x#" = [["for", "é"], ["é", "x#"]] := by decide
  have hlists : ListsEdges (Graph.rows "for é\né x#") := by
    rw [hwords]
    exact ⟨by decide, by decide, by decide, by decide⟩
  obtain ⟨g, hg, hids⟩ := exists_parse hlists (congrArg (·.flatten.eraseDups) hwords) "mem"
  replace hids : g.ids = ["for", "é", "x#"] := hids
  have hrows : RowsFor rows g.ids (vectorsOf rows) 2 := by
    rw [hids]
    exact ⟨by decide, by decide +kernel, by decide⟩
  have hlines : Text.lines "x#: 1 -2.5\nfor: .5 1e3\né: 0 7\n" =
      rows.map fun r => FeatureTable.rowText r.1 r.2 := by decide +kernel
  have hcolon : ∀ id ∈ g.ids, ':' ∉ id.toList := by
    rw [hids]
    decide
  obtain ⟨t, g', ht, hg', -, -, hvectors⟩ := (build_of_rows "table" hg hrows hlines).1 hcolon
  exact ⟨g, t, g', hg, hrows, ht, hg', hvectors⟩

/-- An edge list may name a node with a colon; its row is refused, though its value is finite. -/
theorem colon_row_refused :
    let rows := [("a:b", ["1"]), ("c", ["2"])]
    ∃ g, Graph.parse "a:b c" "mem" = .ok g ∧ RowsFor rows g.ids (vectorsOf rows) 1 ∧
      (∀ id ∈ g.ids, ∀ v ∈ vectorsOf rows id, v.isFinite = true) ∧
      Text.lines "a:b: 1\nc: 2\n" = rows.map (fun r => FeatureTable.rowText r.1 r.2) ∧
      FeatureTable.parse "a:b: 1\nc: 2\n" 1 "mem" =
        .error (.malformedFeatures "mem" 1 (.notANumber "b:")) := by
  intro rows
  have hwords : Graph.rows "a:b c" = [["a:b", "c"]] := by decide
  have hlists : ListsEdges (Graph.rows "a:b c") := by
    rw [hwords]
    exact ⟨by decide, by decide, by decide, by decide⟩
  obtain ⟨g, hg, hids⟩ := exists_parse hlists (congrArg (·.flatten.eraseDups) hwords) "mem"
  replace hids : g.ids = ["a:b", "c"] := hids
  refine ⟨g, hg, ?_, ?_, by decide +kernel, rfl⟩
  · rw [hids]
    exact ⟨by decide, by decide +kernel, by decide⟩
  · rw [hids]
    decide +kernel

end Graph

end TreeCorpus
