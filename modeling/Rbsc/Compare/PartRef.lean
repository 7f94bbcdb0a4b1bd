import Rbsc.Rsc.Exact
import Rbsc.PartRef.Read

/-!
# `rsc` and `part_ref` on one exported graph

The benchmarks give a graph to `rsc` through `arcs-cuda` and to `part_ref` through `arcs-valmari`.
Both read back the arcs of the graph, and both print the number of classes of its coarsest BE
partition: `rsc` by its rounds over all nodes, when no sums collide, and `part_ref` by its splitters.
-/

namespace Rbsc.Compare

/-- **`rsc` and `part_ref` agree on every exported graph.**  The number that both print is that of
the classes of the coarsest BE partition; `rsc` needs at most `num_nodes + 1` rounds and `part_ref`
at most `num_nodes` splitters. -/
theorem rsc_part_ref (h : Word → Word) (srt : Rsc.StdSort) (g : WebGraph) (hn : 1 ≤ g.num_nodes)
    (hlt : g.num_nodes < 2 ^ 31) (hm : g.num_arcs < 2 ^ 31)
    (hcf : Rsc.CollisionFree h srt g.graph) :
    (∀ fuel, g.num_nodes + 1 ≤ fuel →
        Rsc.main h srt next_number fuel (ArcsCuda.to_csv g) = some (beClasses g.graph)) ∧
      ∀ fuel, g.num_nodes ≤ fuel →
        PartRef.part_ref PartRef.numbers fuel (ArcsValmari.to_csv g) = some (beClasses g.graph) := by
  refine ⟨fun fuel hfuel => ?_, fun fuel hfuel =>
    PartRef.part_ref_to_csv hn hlt hm hfuel⟩
  have hacc : Rsc.Accepted g.graph := WebGraph.accepted_graph hn hlt.le (by omega)
  have hgr := WebGraph.grouped_graph g
  obtain ⟨s, hs⟩ := Rsc.rsc_returns hacc hgr hcf
  have hs' : Rsc.rsc h srt g.graph fuel = some s := DoWhile.doWhile_mono hfuel hs
  have hcount := Rsc.count_eq_beClasses hacc hgr hcf hs
  rw [Rsc.main, read_graph_to_csv (by omega) (by omega), Option.bind_some, hs', Option.map_some,
    hcount]

/-- One arc between two nodes. -/
def edgeWebGraph : WebGraph where
  num_nodes := 2
  successors src := if src = 0 then [1] else []
  below := by decide
  distinct := by decide

theorem rsc_part_ref_edgeWebGraph :
    (∀ fuel, 3 ≤ fuel → Rsc.main randomize Rsc.StdSort.insertion next_number fuel [2, 1, 0, 1, 1] =
        some (beClasses edgeWebGraph.graph)) ∧
      ∀ fuel, 2 ≤ fuel → PartRef.part_ref PartRef.numbers fuel [2, 0, 0, 1, 1, 1, 1, 2] =
        some (beClasses edgeWebGraph.graph) :=
  rsc_part_ref randomize Rsc.StdSort.insertion edgeWebGraph (by decide) (by decide) (by decide)
    Rsc.edgeGraph_collisionFree

end Rbsc.Compare
