import TreeCorpus.Dataset.Record
import TreeCorpus.Proofs.Dataset.Sample
import TreeCorpus.Proofs.Graph.Building
import TreeCorpus.Proofs.Graph.EdgeText

/-!
# Graphs that are restored from records

A record holds the names of the nodes, the rows and the edges by position, but neither the children
nor the parents. They are not lost: the edges of the record, written as pairs of names, are read as
the graph without its rows, and with the rows of the record it is the graph of the sample again
(`record_restores_graph`). For annotating only puts rows on nodes (`Graph.eq_withRows_of_annotate`),
and a graph that is read has none (`Graph.map_bare_ofPairs`).
-/

namespace TreeCorpus

open Number

/-! ## Records -/

namespace Record

/-- The names at the two ends of each edge, in order. -/
def edgeNames (r : Record) : List (String × String) :=
  (r.sources.zip r.targets).map fun e => (r.nodes[e.1]?.getD "", r.nodes[e.2]?.getD "")

/-- The edges as an edge list, one line each. -/
def edgeText (r : Record) : String := Graph.textOfPairs r.edgeNames

variable {s : Sample}

/-- The edges of the record are those of the graph. -/
theorem edgeNames_ofSample (h : s.graph.Linked) : (ofSample s).edgeNames = s.graph.edgeIds := by
  have hzip : (ofSample s).sources.zip (ofSample s).targets = s.graph.edges.toList := by
    show (s.graph.edges.toList.map Prod.fst).zip (s.graph.edges.toList.map Prod.snd) = _
    rw [List.zip_map']
    exact List.map_id _
  unfold edgeNames
  rw [hzip, Graph.edgeIds_eq_filterMap, ← List.filterMap_eq_map]
  apply List.filterMap_congr
  intro e he
  obtain ⟨p, c, hpc⟩ := h.exists_namesOf he
  obtain ⟨hp, hc⟩ := Graph.namesOf_eq_some_iff.1 hpc
  show some (s.graph.ids[e.1]?.getD "", s.graph.ids[e.2]?.getD "") = _
  rw [hpc, hp, hc]
  rfl

/-- Every edge of the record joins two of its nodes. -/
theorem lt_length_nodes (h : s.graph.Linked) {u : Nat}
    (hu : u ∈ (ofSample s).sources ∨ u ∈ (ofSample s).targets) : u < (ofSample s).nodes.length := by
  have hlength : (ofSample s).nodes.length = s.graph.nodes.size := s.graph.length_ids
  rw [hlength]
  rcases hu with hu | hu
  · obtain ⟨e, he, rfl⟩ := List.mem_map.1 hu
    exact (h.inRange he).1
  · obtain ⟨e, he, rfl⟩ := List.mem_map.1 hu
    exact (h.inRange he).2

end Record

/-- The record of a built sample loses nothing of its graph. Its nodes are distinct and as many as
its rows, and its edges join two of them; written as an edge list they are read as the graph of the
sample without its rows, with the same nodes in the same order, the same edges, children, parents
and in-degrees; and with the rows of the record on its nodes it is the graph itself. -/
theorem record_restores_graph {a : Dataset} {d : Disk} {i : Nat} {s : Sample}
    (h : a.buildSample d i = .ok s) :
    let r := Record.ofSample s
    r.nodes.Nodup ∧ r.nodes.length = r.rows.length ∧ r.sources.length = r.targets.length ∧
    (∀ u, u ∈ r.sources ∨ u ∈ r.targets → u < r.nodes.length) ∧
    ∀ origin, ∃ g, Graph.parse r.edgeText origin = .ok g ∧ g.edges = s.graph.edges ∧
      g.nodes = s.graph.nodes.map Node.bare ∧ g.withRows r.rows = s.graph ∧
      s.graph.nodes.toList.map Node.features = r.rows := by
  intro r
  obtain ⟨-, -, hgraph, -, -⟩ := Dataset.buildSample_eq_ok_iff.1 h
  have hlinked := Dataset.linked_of_buildGraph hgraph
  obtain ⟨table, text, g, -, -, hparse, hann⟩ := Dataset.buildGraph_eq_ok_iff.1 hgraph
  have hannotates := Graph.annotates_of_annotate hann
  refine ⟨s.graph.nodup_ids, ?_, ?_, fun u => Record.lt_length_nodes hlinked, fun origin => ?_⟩
  · exact (List.length_map ..).trans (List.length_map ..).symm
  · exact (List.length_map ..).trans (List.length_map ..).symm
  · refine ⟨g, ?_, hannotates.edges_eq.symm, Graph.nodes_eq_map_bare hparse hann,
      (Graph.eq_withRows_of_annotate hann).symm, rfl⟩
    have hnames : r.edgeNames = g.edgeIds :=
      (Record.edgeNames_ofSample hlinked).trans hannotates.edgeIds_eq
    rw [Record.edgeText, hnames]
    exact Graph.parse_textOfPairs_edgeIds hparse origin

theorem record_restores_graph_solo : ∃ s g,
    soloDataset.buildSample (soloDisk "p: 1\nc: 2") 0 = .ok s ∧
      Graph.parse (Record.ofSample s).edgeText "" = .ok g ∧
      g.nodes = s.graph.nodes.map Node.bare ∧
      g.withRows [[⟨0x3F800000⟩], [⟨0x40000000⟩]] = s.graph := by
  have hrows : SoloRows "p: 1\nc: 2" ⟨0x3F800000⟩ ⟨0x40000000⟩ := by
    unfold SoloRows
    decide +kernel
  obtain ⟨s, hs, hfeatures⟩ := exists_soloSample hrows
  obtain ⟨-, -, -, -, hrestored⟩ := record_restores_graph hs
  obtain ⟨g, hg, -, hnodes, hwith, hx⟩ := hrestored ""
  rw [← hx, hfeatures] at hwith
  exact ⟨s, g, hs, hg, hnodes, hwith⟩

end TreeCorpus
