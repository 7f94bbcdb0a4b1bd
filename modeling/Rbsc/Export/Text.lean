import Rbsc.Stdin.GraphFile

/-!
# The exported text

The characters that `to_csv` of `arcs-cuda` writes are a graph file, so that both readers read back
the arcs, with whatever stands behind the text left unread.

* `ArcsCuda.text`, `ArcsValmari.text`: the characters, line by line;
* `exportFile`: the graph file that `arcs-cuda` writes;
* `read_graphs_text`: what both readers make of them.
-/

namespace Rbsc

open Stdin

/-- What `to_csv` of `arcs-cuda` writes to its output. -/
def ArcsCuda.text (g : WebGraph) : String :=
  let num_nodes := g.num_nodes
  let num_edges := g.num_arcs
  s!"{num_nodes}\n" ++ s!"{num_edges}\n" ++
    String.join (g.iter.flatMap fun (src, succ) => succ.map fun dst => s!"{src} 1 {dst}\n")

/-- What `to_csv` of `arcs-valmari` writes to its output. -/
def ArcsValmari.text (g : WebGraph) : String :=
  let num_nodes := g.num_nodes
  let num_edges := g.num_arcs
  s!"{num_nodes} 0 0 {num_edges} 1\n" ++
    String.join (g.iter.flatMap fun (src, succ) =>
      succ.map fun dst => s!"{src + 1} 1 {dst + 1}\n")

/-- The line of an arc. -/
def arcRow (a : ℕ × ℕ) : Row where
  edge_start := .spaced a.1
  edge_weight := .spaced 1
  edge_end := .ended a.2

/-- The text as a graph file. -/
def exportFile (g : WebGraph) (hn : g.num_nodes < 2 ^ 32) (hm : g.num_arcs < 2 ^ 64) :
    GraphFile where
  node_n := .ended g.num_nodes
  edge_n := .ended g.num_arcs
  rows := g.arcs.map arcRow
  node_lt := by rwa [Numeral.value_ended]
  edge_lt := by rwa [Numeral.value_ended]
  announced := by rw [Numeral.value_ended, List.length_map, WebGraph.num_arcs]
  ids r hr := by
    obtain ⟨a, ha, rfl⟩ := List.mem_map.1 hr
    simpa [arcRow] using WebGraph.arcs_below ha
  weight_lt r hr := by
    obtain ⟨a, -, rfl⟩ := List.mem_map.1 hr
    simp [arcRow]

variable {g : WebGraph} {hn : g.num_nodes < 2 ^ 32} {hm : g.num_arcs < 2 ^ 64}

theorem graph_exportFile : (exportFile g hn hm).graph = g.graph := by
  simp [GraphFile.graph, GraphFile.edges, exportFile, WebGraph.graph, arcRow, Row.edge,
    Function.comp_def]

/-- A number on a line of its own. -/
theorem text_line (n : ℕ) : (Numeral.ended n).text = (s!"{n}\n").toList := by
  simp [Numeral.text, Numeral.ended, Numeral.print, toString]

theorem text_arcRow (a : ℕ × ℕ) :
    (arcRow a).text = (let (src, dst) := a; s!"{src} 1 {dst}\n").toList := by
  have hone : Nat.toDigits 10 1 = ['1'] := by decide
  simp [Row.text, arcRow, Numeral.text, Numeral.spaced, Numeral.ended, Numeral.print, toString, hone]

theorem text_exportFile : (exportFile g hn hm).text = (ArcsCuda.text g).toList := by
  simp only [GraphFile.text, exportFile, ArcsCuda.text, String.toList_append, String.toList_join,
    text_line, text_arcRow, WebGraph.arcs, List.flatMap_map, List.flatMap_assoc]

theorem WebGraph.num_arcs_lt (hn : g.num_nodes < 2 ^ 32) : g.num_arcs < 2 ^ 64 := by
  have h : g.num_nodes * g.num_nodes < 2 ^ 32 * 2 ^ 32 := Nat.mul_lt_mul'' hn hn
  exact g.num_arcs_le.trans_lt h

/-- `rbsc` reads back the text of any graph whose nodes it can number. -/
theorem rbsc_reads_text (hn : g.num_nodes < 2 ^ 32) {fuel : ℕ}
    (hfuel : (ArcsCuda.text g).length ≤ fuel) (rest : List Byte) :
    rbsc_read_graph (read_uint64 fuel) (bytes (ArcsCuda.text g).toList ++ rest) =
      some (.success g.graph 0 rest) := by
  have hlen : (exportFile g hn (WebGraph.num_arcs_lt hn)).text.length ≤ fuel := by
    rwa [text_exportFile, String.length_toList]
  have h := rbsc_reads hlen rest
  rwa [text_exportFile, graph_exportFile] at h

/-- **Both readers read back the text of a graph**, and nothing behind it. -/
theorem read_graphs_text (hn : g.num_nodes < 2 ^ 32) (hm : g.num_arcs < 2 ^ 32) {fuel : ℕ}
    (hfuel : (ArcsCuda.text g).length ≤ fuel) (rest : List Byte) :
    rsc_read_graph (read_uint64 fuel) (bytes (ArcsCuda.text g).toList ++ rest) =
        some (.success g.graph g.num_arcs rest) ∧
      rbsc_read_graph (read_uint64 fuel) (bytes (ArcsCuda.text g).toList ++ rest) =
        some (.success g.graph 0 rest) ∧
      g.graph.node_n = g.num_nodes ∧ g.graph.edges.length = g.num_arcs ∧
      Grouped g.graph.edges ∧ IdsBelow g.num_nodes g.graph.edges := by
  have hm' : g.num_arcs < 2 ^ 64 := by omega
  have hlen : (exportFile g hn hm').text.length ≤ fuel := by
    rwa [text_exportFile, String.length_toList]
  have hedges : (exportFile g hn hm').edges = g.graph.edges :=
    congrArg Graph.edges graph_exportFile
  have htot : totalWeight (exportFile g hn hm').edges = g.num_arcs := by
    rw [hedges, g.totalWeight_graph]
  have hrsc := rsc_reads hlen rest (by rw [htot, Rsc.WEIGHT_MAX]; omega)
  rw [text_exportFile, graph_exportFile, htot] at hrsc
  exact ⟨hrsc, rbsc_reads_text hn hfuel rest, rfl, List.length_map .., g.grouped_graph,
    g.idsBelow_graph⟩

/-- An arc from each of two nodes to the other. -/
def arcPair : WebGraph where
  num_nodes := 2
  successors src := [1 - src]
  below := by decide
  distinct := by decide

theorem text_arcPair : ArcsCuda.text arcPair = "2\n2\n0 1 1\n1 1 0\n" := by decide

theorem read_graphs_text_arcPair :
    rsc_read_graph (read_uint64 16) (bytes "2\n2\n0 1 1\n1 1 0\n".toList ++ bytes "7".toList) =
        some (.success ⟨2, [⟨0, 1, 1⟩, ⟨1, 0, 1⟩]⟩ 2 (bytes "7".toList)) ∧
      rbsc_read_graph (read_uint64 16) (bytes "2\n2\n0 1 1\n1 1 0\n".toList ++ bytes "7".toList) =
        some (.success ⟨2, [⟨0, 1, 1⟩, ⟨1, 0, 1⟩]⟩ 0 (bytes "7".toList)) := by
  have h := @read_graphs_text arcPair (by decide) (by decide) 16 (by decide) (bytes "7".toList)
  rw [text_arcPair] at h
  exact ⟨h.1, h.2.1⟩

end Rbsc
