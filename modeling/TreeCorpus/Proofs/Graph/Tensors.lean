import Mathlib.Data.List.Induction
import TreeCorpus.Graph.Tensors
import TreeCorpus.Proofs.Graph.FeatureRows

/-!
# Joined tensors

The tensors of several graphs are joined one after the other: rows behind rows, edges shifted past
the rows before them, marks raised past the marks before them (`Tensors.join`). Joining is
associative, so a list of graphs can be cut anywhere (`ofGraphs_append`). As long as each edge stays
among the rows of one mark (`Coherent`), a join can be taken apart again: what is marked below `k`
is the first part, and what is marked `k` and above is the second (`part_join_of_lt`,
`part_join_add`). The tensors of the graphs are thus the parts of the whole
(`ofGraphs_concatenates`).
-/

namespace TreeCorpus

open Number

namespace Tensors

variable {t u : Tensors} {k n : Nat} {g : Graph} {gs : List Graph}

/-! ## Joining -/

/-- The edges as pairs of row positions. -/
def edges (t : Tensors) : List (Nat × Nat) := t.sources.zip t.targets

/-- Tensors behind tensors: edges are shifted past the rows before them, marks are raised by `k`. -/
def join (t : Tensors) (k : Nat) (u : Tensors) : Tensors where
  rows := t.rows ++ u.rows
  sources := t.sources ++ u.sources.map (· + t.rows.length)
  targets := t.targets ++ u.targets.map (· + t.rows.length)
  batch := t.batch ++ u.batch.map (· + k)

theorem append_eq_join (t : Tensors) (n : Nat) (g : Graph) :
    t.append n g = t.join n (ofGraph g) := by
  simp only [append, join, ofGraph, List.map_replicate, Nat.zero_add]

theorem join_empty (t : Tensors) (k : Nat) : t.join k empty = t := by
  simp only [join, empty, List.map_nil, List.append_nil]

theorem join_assoc (t : Tensors) (k : Nat) (u : Tensors) (n : Nat) (v : Tensors) :
    (t.join k u).join (k + n) v = t.join k (u.join n v) := by
  have hshift (a b : Nat) : (fun x => x + (a + b)) = (fun x => x + a) ∘ (fun x => x + b) := by
    funext x
    simp only [Function.comp_apply]
    omega
  simp only [join, List.map_append, List.map_map, List.length_append, List.append_assoc, hshift]

theorem ofGraphs_concat (gs : List Graph) (g : Graph) :
    ofGraphs (gs ++ [g]) = (ofGraphs gs).join gs.length (ofGraph g) := by
  rw [← append_eq_join]
  simp only [ofGraphs, List.zipIdx_append, List.zipIdx_singleton, List.foldl_append,
    List.foldl_cons, List.foldl_nil, Nat.zero_add]

/-- A list of graphs can be cut anywhere. -/
theorem ofGraphs_append (gs hs : List Graph) :
    ofGraphs (gs ++ hs) = (ofGraphs gs).join gs.length (ofGraphs hs) := by
  induction hs using List.reverseRecOn with
  | nil =>
    rw [List.append_nil]
    exact (join_empty _ _).symm
  | append_singleton hs g ih =>
    rw [← List.append_assoc, ofGraphs_concat, ih, List.length_append, join_assoc, ofGraphs_concat]

/-- The marks count the graphs when the last one has a row. -/
theorem graphCount_ofGraphs (h : ∀ g ∈ gs, 0 < g.nodes.size) :
    (ofGraphs gs).graphCount = gs.length := by
  cases gs using List.reverseRecOn with
  | nil => rfl
  | append_singleton gs g =>
    have hg : g.nodes.size ≠ 0 := Nat.ne_of_gt (h g (by simp))
    rw [ofGraphs_concat]
    simp [graphCount, join, ofGraph, List.getLast?_append, List.getLast?_replicate, hg]

/-! ## Coherent tensors -/

/-- Marks are below `k` and never fall, and each edge joins two rows of one mark. -/
structure Coherent (t : Tensors) (k : Nat) : Prop where
  length_batch : t.batch.length = t.rows.length
  length_targets : t.targets.length = t.sources.length
  lt_of_mem : ∀ n ∈ t.batch, n < k
  pairwise : t.batch.Pairwise (· ≤ ·)
  exists_mark : ∀ e ∈ t.edges, ∃ n, t.batch[e.1]? = some n ∧ t.batch[e.2]? = some n

theorem Coherent.lt_length (ht : t.Coherent k) {i : Nat} (h : t.batch[i]? = some n) :
    i < t.rows.length :=
  ht.length_batch ▸ (List.getElem?_eq_some_iff.1 h).1

theorem Coherent.inRange (ht : t.Coherent k) {e : Nat × Nat} (he : e ∈ t.edges) :
    e.1 < t.rows.length ∧ e.2 < t.rows.length := by
  obtain ⟨n, h₁, h₂⟩ := ht.exists_mark e he
  exact ⟨ht.lt_length h₁, ht.lt_length h₂⟩

/-- The edges of a join are those of the first and the shifted ones of the second. -/
theorem Coherent.edges_join (ht : t.Coherent k) (m : Nat) (u : Tensors) :
    (t.join m u).edges =
      t.edges ++ u.edges.map (Prod.map (· + t.rows.length) (· + t.rows.length)) := by
  simp only [edges, join, List.zip_append ht.length_targets.symm, List.zip_map]

/-- The first rows of a join keep their marks. -/
theorem Coherent.mark_join_of_lt (ht : t.Coherent k) (m : Nat) (u : Tensors) {i : Nat}
    (hi : i < t.rows.length) : (t.join m u).batch[i]? = t.batch[i]? :=
  List.getElem?_append_left (ht.length_batch.symm ▸ hi)

/-- The marks of the rows behind them are raised. -/
theorem Coherent.mark_join_add (ht : t.Coherent k) (m : Nat) (u : Tensors) (i : Nat) :
    (t.join m u).batch[i + t.rows.length]? = (u.batch[i]?).map (· + m) := by
  show (t.batch ++ u.batch.map (· + m))[i + t.rows.length]? = _
  rw [List.getElem?_append_right (ht.length_batch ▸ Nat.le_add_left _ _), ht.length_batch,
    Nat.add_sub_cancel, List.getElem?_map]

theorem coherent_empty : empty.Coherent 0 where
  length_batch := rfl
  length_targets := rfl
  lt_of_mem _ h := absurd h List.not_mem_nil
  pairwise := List.Pairwise.nil
  exists_mark _ h := absurd h List.not_mem_nil

theorem edges_ofGraph (g : Graph) : (ofGraph g).edges = g.edges.toList := by
  simp only [edges, ofGraph, List.zip_map', Prod.mk.eta, List.map_id']

theorem mark_ofGraph {i : Nat} (h : i < g.nodes.size) : (ofGraph g).batch[i]? = some 0 :=
  List.getElem?_replicate_of_lt h

theorem coherent_ofGraph (hl : g.Linked) : (ofGraph g).Coherent 1 where
  length_batch := by simp [ofGraph]
  length_targets := by simp [ofGraph]
  lt_of_mem n h := by simp [List.eq_of_mem_replicate h]
  pairwise := List.pairwise_replicate_of_refl
  exists_mark e he := by
    rw [edges_ofGraph] at he
    have hlt := hl.inRange he
    exact ⟨0, mark_ofGraph hlt.1, mark_ofGraph hlt.2⟩

/-- Joining keeps tensors coherent. -/
theorem Coherent.join (ht : t.Coherent k) (hu : u.Coherent n) : (t.join k u).Coherent (k + n) where
  length_batch := by simp [Tensors.join, ht.length_batch, hu.length_batch]
  length_targets := by simp [Tensors.join, ht.length_targets, hu.length_targets]
  lt_of_mem x hx := by
    rcases List.mem_append.1 hx with hx | hx
    · have := ht.lt_of_mem x hx
      omega
    · obtain ⟨y, hy, rfl⟩ := List.mem_map.1 hx
      have := hu.lt_of_mem y hy
      omega
  pairwise := by
    refine List.pairwise_append.2 ⟨ht.pairwise, ?_, fun x hx y hy => ?_⟩
    · exact List.pairwise_map.2 (hu.pairwise.imp fun h => Nat.add_le_add_right h k)
    · obtain ⟨z, -, rfl⟩ := List.mem_map.1 hy
      have := ht.lt_of_mem x hx
      omega
  exists_mark e he := by
    rw [ht.edges_join] at he
    rcases List.mem_append.1 he with he | he
    · obtain ⟨x, h₁, h₂⟩ := ht.exists_mark e he
      have hlt := ht.inRange he
      exact ⟨x, (ht.mark_join_of_lt k u hlt.1).trans h₁, (ht.mark_join_of_lt k u hlt.2).trans h₂⟩
    · obtain ⟨e', he', rfl⟩ := List.mem_map.1 he
      obtain ⟨x, h₁, h₂⟩ := hu.exists_mark e' he'
      exact ⟨x + k, (ht.mark_join_add k u _).trans (congrArg _ h₁),
        (ht.mark_join_add k u _).trans (congrArg _ h₂)⟩

theorem coherent_ofGraphs (h : ∀ g ∈ gs, g.Linked) : (ofGraphs gs).Coherent gs.length := by
  induction gs using List.reverseRecOn with
  | nil => exact coherent_empty
  | append_singleton gs g ih =>
    rw [ofGraphs_concat, List.length_append]
    exact (ih fun g' hg' => h g' (by simp [hg'])).join (coherent_ofGraph (h g (by simp)))

/-! ## Taking a join apart -/

/-- The rows with a mark. -/
def rowsMarked (t : Tensors) (n : Nat) : List (List Single) :=
  ((t.rows.zip t.batch).filter fun r => r.2 == n).map Prod.fst

/-- Both ends of an edge carry a mark. -/
def within (t : Tensors) (n : Nat) (e : Nat × Nat) : Bool :=
  t.batch[e.1]? == some n && t.batch[e.2]? == some n

/-- The edges with a mark at both ends. -/
def edgesMarked (t : Tensors) (n : Nat) : List (Nat × Nat) := t.edges.filter (t.within n)

/-- How many rows have a mark below `n`. -/
def rowsBelow (t : Tensors) (n : Nat) : Nat := t.batch.countP (· < n)

/-- The rows marked `n` and the edges between them, counted from the first of these rows, as tensors
of one graph. -/
def part (t : Tensors) (n : Nat) : Tensors where
  rows := t.rowsMarked n
  sources := (t.edgesMarked n).map (·.1 - t.rowsBelow n)
  targets := (t.edgesMarked n).map (·.2 - t.rowsBelow n)
  batch := List.replicate (t.rowsMarked n).length 0

theorem within_iff {e : Nat × Nat} :
    t.within n e = true ↔ t.batch[e.1]? = some n ∧ t.batch[e.2]? = some n := by
  simp only [within, Bool.and_eq_true, beq_iff_eq]

namespace Coherent

/-- The first rows of a join have no mark from `k` on. -/
theorem mark_ne (ht : t.Coherent k) {x : Nat} (hx : x ∈ t.batch) : x ≠ k + n := by
  have := ht.lt_of_mem x hx
  omega

theorem rowsMarked_join_of_lt (ht : t.Coherent k) (u : Tensors) (hn : n < k) :
    (t.join k u).rowsMarked n = t.rowsMarked n := by
  have hnil : (u.rows.zip (u.batch.map (· + k))).filter (fun r => r.2 == n) = [] := by
    rw [List.filter_eq_nil_iff]
    rintro ⟨r, x⟩ hr hx
    obtain ⟨y, -, rfl⟩ := List.mem_map.1 (List.of_mem_zip hr).2
    have := eq_of_beq hx
    omega
  simp only [rowsMarked, Tensors.join, List.zip_append ht.length_batch.symm, List.filter_append,
    hnil, List.append_nil]

theorem rowsMarked_join_add (ht : t.Coherent k) (u : Tensors) (n : Nat) :
    (t.join k u).rowsMarked (k + n) = u.rowsMarked n := by
  have hnil : (t.rows.zip t.batch).filter (fun r => r.2 == k + n) = [] := by
    rw [List.filter_eq_nil_iff]
    rintro ⟨r, x⟩ hr hx
    exact ht.mark_ne (List.of_mem_zip hr).2 (eq_of_beq hx)
  have hmark : (fun r : List Single × Nat => r.2 == k + n) ∘ Prod.map id (· + k) =
      fun r => r.2 == n := by
    funext r
    rw [Bool.eq_iff_iff]
    simp only [Function.comp_apply, Prod.map_snd, beq_iff_eq]
    omega
  simp only [rowsMarked, Tensors.join, List.zip_append ht.length_batch.symm, List.filter_append,
    hnil, List.nil_append, List.zip_map_right, List.filter_map, hmark, List.map_map]
  rfl

/-- An edge of the first tensors keeps its marks. -/
theorem within_join (ht : t.Coherent k) (u : Tensors) {e : Nat × Nat} (he : e ∈ t.edges) :
    (t.join k u).within n e = t.within n e := by
  have hlt := ht.inRange he
  rw [within, ht.mark_join_of_lt k u hlt.1, ht.mark_join_of_lt k u hlt.2, within]

/-- A shifted edge of the second tensors has its marks raised. -/
theorem within_join_shift_iff (ht : t.Coherent k) (u : Tensors) {e : Nat × Nat} :
    (t.join k u).within n (e.map (· + t.rows.length) (· + t.rows.length)) = true ↔
      ∃ x, x + k = n ∧ u.within x e = true := by
  simp only [within_iff, Prod.map_fst, Prod.map_snd, ht.mark_join_add, Option.map_eq_some_iff]
  constructor
  · rintro ⟨⟨x, hx, rfl⟩, y, hy, hxy⟩
    exact ⟨x, rfl, hx, (Nat.add_right_cancel hxy) ▸ hy⟩
  · rintro ⟨x, rfl, h₁, h₂⟩
    exact ⟨⟨x, h₁, rfl⟩, x, h₂, rfl⟩

theorem edgesMarked_join_of_lt (ht : t.Coherent k) (u : Tensors) (hn : n < k) :
    (t.join k u).edgesMarked n = t.edgesMarked n := by
  rw [edgesMarked, ht.edges_join, List.filter_append, edgesMarked,
    List.filter_congr fun e he => ht.within_join u he]
  refine (congrArg _ (List.filter_eq_nil_iff.2 ?_)).trans (List.append_nil _)
  intro e he hw
  obtain ⟨e', -, rfl⟩ := List.mem_map.1 he
  obtain ⟨x, hx, -⟩ := (ht.within_join_shift_iff u).1 hw
  omega

theorem edgesMarked_join_add (ht : t.Coherent k) (u : Tensors) (n : Nat) :
    (t.join k u).edgesMarked (k + n) =
      (u.edgesMarked n).map (Prod.map (· + t.rows.length) (· + t.rows.length)) := by
  have hnil : t.edges.filter ((t.join k u).within (k + n)) = [] := by
    rw [List.filter_eq_nil_iff]
    intro e he hw
    rw [ht.within_join u he] at hw
    exact ht.mark_ne (List.mem_of_getElem? (within_iff.1 hw).1) rfl
  rw [edgesMarked, ht.edges_join, List.filter_append, hnil, List.nil_append, List.filter_map,
    edgesMarked]
  refine congrArg _ (List.filter_congr fun e _ => ?_)
  rw [Bool.eq_iff_iff, Function.comp_apply, ht.within_join_shift_iff]
  constructor
  · rintro ⟨x, hx, hw⟩
    obtain rfl : x = n := by omega
    exact hw
  · exact fun hw => ⟨n, Nat.add_comm n k, hw⟩

theorem rowsBelow_join_of_lt (u : Tensors) (hn : n < k) :
    (t.join k u).rowsBelow n = t.rowsBelow n := by
  have hnone : (u.batch.map (· + k)).countP (· < n) = 0 := by
    rw [List.countP_eq_zero]
    intro x hx
    obtain ⟨y, -, rfl⟩ := List.mem_map.1 hx
    simp only [decide_eq_true_eq]
    omega
  rw [rowsBelow, Tensors.join, List.countP_append, hnone, Nat.add_zero, rowsBelow]

theorem rowsBelow_join_add (ht : t.Coherent k) (u : Tensors) (n : Nat) :
    (t.join k u).rowsBelow (k + n) = t.rows.length + u.rowsBelow n := by
  have hall : t.batch.countP (· < k + n) = t.rows.length := by
    rw [← ht.length_batch, List.countP_eq_length]
    intro x hx
    have := ht.lt_of_mem x hx
    simp only [decide_eq_true_eq]
    omega
  rw [rowsBelow, Tensors.join, List.countP_append, hall, List.countP_map, rowsBelow]
  refine congrArg _ (List.countP_congr fun x _ => ?_)
  simp only [Function.comp_apply, decide_eq_true_eq]
  omega

/-- What is marked below `k` is the first part of a join. -/
theorem part_join_of_lt (ht : t.Coherent k) (u : Tensors) (hn : n < k) :
    (t.join k u).part n = t.part n := by
  rw [part, ht.rowsMarked_join_of_lt u hn, ht.edgesMarked_join_of_lt u hn,
    rowsBelow_join_of_lt u hn, part]

/-- What is marked `k` and above is the second part, moved back. -/
theorem part_join_add (ht : t.Coherent k) (u : Tensors) (n : Nat) :
    (t.join k u).part (k + n) = u.part n := by
  have hends (x : Nat) :
      x + t.rows.length - (t.rows.length + u.rowsBelow n) = x - u.rowsBelow n := by omega
  rw [part, ht.rowsMarked_join_add, ht.edgesMarked_join_add, ht.rowsBelow_join_add, part]
  simp only [List.map_map, Function.comp_def, Prod.map_fst, Prod.map_snd, hends]

end Coherent

theorem rowsMarked_ofGraph (g : Graph) : (ofGraph g).rowsMarked 0 = (ofGraph g).rows := by
  have hall : ((ofGraph g).rows.zip (ofGraph g).batch).filter (fun r => r.2 == 0) =
      (ofGraph g).rows.zip (ofGraph g).batch := by
    rw [List.filter_eq_self]
    rintro ⟨r, x⟩ hr
    exact beq_iff_eq.2 (List.eq_of_mem_replicate (List.of_mem_zip hr).2)
  rw [rowsMarked, hall, List.map_fst_zip]
  simp [ofGraph]

theorem edgesMarked_ofGraph (hl : g.Linked) : (ofGraph g).edgesMarked 0 = g.edges.toList := by
  rw [edgesMarked, edges_ofGraph, List.filter_eq_self]
  intro e he
  have hlt := hl.inRange he
  exact within_iff.2 ⟨mark_ofGraph hlt.1, mark_ofGraph hlt.2⟩

/-- The tensors of one graph are their own first part. -/
theorem part_ofGraph (hl : g.Linked) : (ofGraph g).part 0 = ofGraph g := by
  have hbelow : (ofGraph g).rowsBelow 0 = 0 :=
    List.countP_eq_zero.2 fun x _ hx => Nat.not_lt_zero x (of_decide_eq_true hx)
  rw [part, rowsMarked_ofGraph, edgesMarked_ofGraph hl, hbelow]
  simp [ofGraph]

/-- The tensors of the graphs are the parts of the whole. -/
theorem part_ofGraphs (h : ∀ g ∈ gs, g.Linked) (hn : gs[n]? = some g) :
    (ofGraphs gs).part n = ofGraph g := by
  induction gs using List.reverseRecOn with
  | nil => simp at hn
  | append_singleton gs last ih =>
    have hgs : ∀ g ∈ gs, g.Linked := fun g' hg' => h g' (by simp [hg'])
    have hlast : last.Linked := h last (by simp)
    have hc := coherent_ofGraphs hgs
    rw [ofGraphs_concat]
    rcases Nat.lt_or_ge n gs.length with hlt | hle
    · rw [List.getElem?_append_left hlt] at hn
      exact (hc.part_join_of_lt _ hlt).trans (ih hgs hn)
    · have hlength := (List.getElem?_eq_some_iff.1 hn).1
      rw [List.length_append, List.length_singleton] at hlength
      obtain rfl : n = gs.length + 0 := by omega
      rw [Nat.add_zero, List.getElem?_concat_length] at hn
      rw [hc.part_join_add, part_ofGraph hlast, Option.some.inj hn]

/-- Tensors hold graphs one after the other, each under the mark of its number. -/
structure Concatenates (t : Tensors) (gs : List Graph) : Prop where
  graphCount_eq : t.graphCount = gs.length
  coherent : t.Coherent gs.length
  inRange : ∀ e ∈ t.edges, e.1 < t.rows.length ∧ e.2 < t.rows.length
  rowsMarked_eq : ∀ n g, gs[n]? = some g → t.rowsMarked n = g.nodes.toList.map Node.features
  part_eq : ∀ n g, gs[n]? = some g → t.part n = ofGraph g

/-- The tensors of graphs that have nodes are an exact concatenation, and that of more graphs
appends to it. -/
theorem ofGraphs_concatenates (h : ∀ g ∈ gs, g.Built ∧ 0 < g.nodes.size) :
    (ofGraphs gs).Concatenates gs ∧
      ∀ hs, ofGraphs (gs ++ hs) = (ofGraphs gs).join (ofGraphs gs).graphCount (ofGraphs hs) := by
  have hl : ∀ g ∈ gs, g.Linked := fun g hg => (h g hg).1.linked
  have hcount := graphCount_ofGraphs fun g hg => (h g hg).2
  have hc := coherent_ofGraphs hl
  refine ⟨⟨hcount, hc, fun e he => hc.inRange he, fun n g hn => ?_, fun n g hn => ?_⟩,
    fun hs => ?_⟩
  · exact congrArg Tensors.rows (part_ofGraphs hl hn)
  · exact part_ofGraphs hl hn
  · rw [hcount, ofGraphs_append]

/-- Three rows of a table. -/
def unitRows : List (String × List Single) :=
  [("a", [⟨0x3F800000⟩, ⟨0⟩]), ("b", [⟨0⟩, ⟨0x3F800000⟩]), ("c", [⟨0⟩, ⟨0⟩])]

def unitTable : FeatureTable := (FeatureTable.empty 2 "units").insertRows unitRows

theorem exists_build_unitTable {text : String} {words : List (List String)}
    (hwords : Graph.rows text = words) (hlists : Graph.ListsEdges words)
    (hnames : ∀ id ∈ words.flatten, ∃ r ∈ unitRows, r.1 = id ∧ r.2.length = 2) :
    ∃ g, Graph.build text "mem" unitTable 2 = .ok g := by
  subst hwords
  refine Graph.exists_build hlists (fun id hid => ?_) "mem"
  obtain ⟨r, hr, rfl, hlength⟩ := hnames id hid
  exact ⟨r.2, FeatureTable.lookup_insertRows (by decide) hr, hlength⟩

/-- Graphs of two and of three nodes, the first of them twice. -/
theorem ofGraphs_concatenates_units :
    ∃ g₁ g₂, Graph.build "b a" "mem" unitTable 2 = .ok g₁ ∧
      Graph.build "a b\nb c" "mem" unitTable 2 = .ok g₂ ∧
      (∀ g ∈ [g₁, g₂, g₁], g.Built ∧ 0 < g.nodes.size) ∧
      (ofGraphs [g₁, g₂, g₁]).Concatenates [g₁, g₂, g₁] := by
  obtain ⟨g₁, hg₁⟩ : ∃ g, Graph.build "b a" "mem" unitTable 2 = .ok g :=
    exists_build_unitTable (show _ = [["b", "a"]] by decide)
      ⟨by decide, by decide, by decide, by decide⟩ (by decide)
  obtain ⟨g₂, hg₂⟩ : ∃ g, Graph.build "a b\nb c" "mem" unitTable 2 = .ok g :=
    exists_build_unitTable (show _ = [["a", "b"], ["b", "c"]] by decide)
      ⟨by decide, by decide, by decide, by decide⟩ (by decide)
  have h : ∀ g ∈ [g₁, g₂, g₁], g.Built ∧ 0 < g.nodes.size := by
    simp [Graph.built_of_build hg₁, Graph.built_of_build hg₂]
  exact ⟨g₁, g₂, hg₁, hg₂, h, (ofGraphs_concatenates h).1⟩

end Tensors

end TreeCorpus
