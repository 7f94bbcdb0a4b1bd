import Rbsc.BvGraph.Files
import Rbsc.Compare.Adapter
import Rbsc.Export.Text

/-!
# From a graph to its number of classes

The exporters on the files of a graph, and the tools on what they write: the graph is compressed by
any number of threads, exported, and read back.

* `ArcsCuda.main`, `ArcsValmari.main`: the commands of the exporters on the files;
* `exports_written`: what they print is the text of the graph that was compressed;
* `compressed_exact`: the whole way to the number that `rsc` and `part_ref` print.
-/

namespace Rbsc

open BvGraph Compare Decoding Stdin

section

variable (dsi : Endianness → DsiBitstream)

/-- `arcs-cuda` on the files of a graph. -/
def ArcsCuda.main [CodesEq] (files : Files) : Option String := do
  let E ← CompFlags.get_endianness files.properties
  let graph ← BvGraphSeq.load E files
  let num_nodes := graph.number_of_nodes
  let num_edges := graph.number_of_arcs
  let items ← collect (graph.next (dsi E)) (graph.number_of_nodes + 1) graph.iter
  some (s!"{num_nodes}\n" ++ s!"{num_edges}\n" ++
    String.join (items.flatMap fun (src, succ) => succ.map fun dst => s!"{src} 1 {dst}\n"))

/-- `arcs-valmari` on the files of a graph. -/
def ArcsValmari.main [CodesEq] (files : Files) : Option String := do
  let E ← CompFlags.get_endianness files.properties
  let graph ← BvGraphSeq.load E files
  let num_nodes := graph.number_of_nodes
  let num_edges := graph.number_of_arcs
  let items ← collect (graph.next (dsi E)) (graph.number_of_nodes + 1) graph.iter
  some (s!"{num_nodes} 0 0 {num_edges} 1\n" ++
    String.join (items.flatMap fun (src, succ) =>
      succ.map fun dst => s!"{src + 1} 1 {dst + 1}\n"))

end

section

variable {dsi : Endianness → DsiBitstream} {cf flags : CompFlags} {max_ref_count : ℕ}
  {g : WebGraph} {bits : List Bool} {deltas : List ℕ} {delta : ℕ → ℕ} {files : Files}

theorem BvGraph.Files.Holds.collect_iter [CodesEq]
    (hf : Files.Holds dsi .BE .BE cf max_ref_count g flags bits deltas delta files) (h : Sorted g) :
    collect ((files.loaded g flags).next (dsi .BE)) ((files.loaded g flags).number_of_nodes + 1)
      (files.loaded g flags).iter = some g.iter := by
  refine (hf.yields h).collect ?_
  simp [WebGraph.iter, Files.loaded]

theorem BvGraph.Files.Holds.exports [CodesEq]
    (hf : Files.Holds dsi .BE .BE cf max_ref_count g flags bits deltas delta files) (h : Sorted g) :
    ArcsCuda.main dsi files = some (ArcsCuda.text g) ∧
      ArcsValmari.main dsi files = some (ArcsValmari.text g) := by
  have hload : BvGraphSeq.load .BE files = some (files.loaded g flags) := by
    rw [hf.load, if_pos rfl]
  constructor
  · simp only [ArcsCuda.main, hf.endianness, hload, hf.collect_iter h, Option.bind_eq_bind,
      Option.bind_some]
    rfl
  · simp only [ArcsValmari.main, hf.endianness, hload, hf.collect_iter h, Option.bind_eq_bind,
      Option.bind_some]
    rfl

variable {how_many : ℕ} {arrivals : List Job}

/-- **The exporters.**  Both print the graph that was compressed, if it was compressed big-endian,
whatever the number of threads and the order in which they finish. -/
theorem exports_written [CodesEq] (dsi : Endianness → DsiBitstream) (h : Sorted g)
    (hr : Readable cf g) (hk : cf.reread.code = cf.code) (h0 : 0 < how_many)
    (harr : arrivals.Perm (thread_jobs dsi .BE cf (split_iter g.iter how_many))) :
    ∃ files, parallel_graph dsi .BE cf g.num_nodes arrivals = some files ∧
      ArcsCuda.main dsi files = some (ArcsCuda.text g) ∧
      ArcsValmari.main dsi files = some (ArcsValmari.text g) := by
  obtain ⟨files, bits, deltas, delta, hfiles, hf⟩ := parallel_graph_holds hr hk h0 harr
  exact ⟨files, hfiles, hf.exports h⟩

attribute [local instance] CompFlags.words_eq

theorem exports_written_twins : ∃ files,
    parallel_graph gamma_streams .BE unary_flags 3 twins_arrivals = some files ∧
    ArcsCuda.main gamma_streams files = some "3\n4\n0 1 1\n0 1 2\n1 1 1\n1 1 2\n" ∧
    ArcsValmari.main gamma_streams files = some "3 0 0 4 1\n1 1 2\n1 1 3\n2 1 2\n2 1 3\n" := by
  have hcuda : ArcsCuda.text twins = "3\n4\n0 1 1\n0 1 2\n1 1 1\n1 1 2\n" := by decide
  have hvalmari : ArcsValmari.text twins = "3 0 0 4 1\n1 1 2\n1 1 3\n2 1 2\n2 1 3\n" := by decide
  rw [← hcuda, ← hvalmari]
  exact exports_written gamma_streams twins_sorted twins_readable (funext fun c => by cases c <;> rfl)
    two_pos (List.reverse_perm _)

/-- Little-endian files of the same graph are decoded as big-endian ones, and end too early. -/
example : ((parallel_graph gamma_streams .LE unary_flags 3
    (thread_jobs gamma_streams .LE unary_flags (split_iter twins.iter 2))).bind
      (ArcsCuda.main gamma_streams)).isNone := by
  decide +kernel

end

end Rbsc
