import Rbsc.PartRef.Reader

/-!
# The two exports of one graph

The benchmarks give one graph to `rbsc` through `arcs-cuda` and to `part_ref` through
`arcs-valmari`.  `rbsc` counts the edges with 64 bits, and `part_ref` reads their number modulo
`2 ^ 32`: from `2 ^ 32` arcs on it stores too few of them, without an error.
-/

namespace Rbsc.Compare

open Stdin PartRef

/-- An edge as `part_ref` has it, with both ids shifted by one. -/
def shifted (e : Edge) : WTransition := ⟨e.edge_start + 1, (e.edge_weight : ℤ), e.edge_end + 1⟩

/-- If `part_ref` accepts its text, it stores the edges that `rbsc` reads from the other. -/
def SameGraph (g : WebGraph) : Prop :=
  ∀ fuel m, MDP_read byteReader fuel (bytes (ArcsValmari.text g).toList) = some m →
    ∀ fuel' ≥ (ArcsCuda.text g).length, ∃ h tot_weight,
      rbsc_read_graph (read_uint64 fuel') (bytes (ArcsCuda.text g).toList) =
          some (.success h tot_weight []) ∧
        m.w_trans = h.edges.map shifted

section

variable {g : WebGraph}

theorem shifted_edges : g.graph.edges.map shifted = arcTransitions g := by
  simp [WebGraph.graph, arcTransitions, shifted, Function.comp_def]

/-- `rbsc` reads the graph, so that only what `part_ref` stores is left to compare. -/
theorem sameGraph_iff (hlt : g.num_nodes < 2 ^ 32) : SameGraph g ↔
    ∀ fuel m, MDP_read byteReader fuel (bytes (ArcsValmari.text g).toList) = some m →
      m.w_trans = arcTransitions g := by
  have hread : ∀ fuel ≥ (ArcsCuda.text g).length,
      rbsc_read_graph (read_uint64 fuel) (bytes (ArcsCuda.text g).toList) =
        some (.success g.graph 0 []) := fun fuel hfuel => by
    have h := rbsc_reads_text hlt hfuel []
    rwa [List.append_nil] at h
  constructor
  · intro h fuel m hm
    obtain ⟨g', tot_weight, hg', hw⟩ := h fuel m hm _ le_rfl
    rw [hread _ le_rfl] at hg'
    cases hg'
    rw [hw, shifted_edges]
  · intro h fuel m hm fuel' hfuel'
    exact ⟨g.graph, 0, hread fuel' hfuel', by rw [h fuel m hm, shifted_edges]⟩

/-- Too few arcs are stored when their number has wrapped. -/
theorem take_arcTransitions_iff (k : ℕ) :
    (arcTransitions g).take k = arcTransitions g ↔ g.num_arcs ≤ k := by
  rw [List.take_eq_self_iff, arcTransitions, List.length_map, WebGraph.num_arcs]

end

/-- **When both get the same graph**: when the number of arcs does not wrap, or wraps to the one
number for which `part_ref` has no arrays. -/
theorem exports_agree_iff (g : WebGraph) (hn : 1 ≤ g.num_nodes) (hlt : g.num_nodes < 2 ^ 32) :
    SameGraph g ↔ g.num_arcs < 2 ^ 32 ∨ g.num_arcs % 2 ^ 32 = 2 ^ 32 - 1 := by
  rw [sameGraph_iff hlt]
  simp only [MDP_read_text hn hlt]
  by_cases hfull : nodeT g.num_arcs + 1 = 2 ^ 32
  · -- the text is not accepted
    refine iff_of_true (fun fuel m hm => ?_) (Or.inr ?_)
    · rw [if_pos hfull] at hm
      cases hm
    · rw [nodeT] at hfull
      omega
  · simp only [if_neg hfull]
    have hiff : (∀ (_ : ℕ) m, some { exported g with
        w_trans := (arcTransitions g).take (nodeT g.num_arcs) } = some m →
          m.w_trans = arcTransitions g) ↔ g.num_arcs ≤ nodeT g.num_arcs := by
      rw [← take_arcTransitions_iff]
      constructor
      · exact fun h => h 0 _ rfl
      · rintro h _ m hm
        cases hm
        exact h
    rw [hiff]
    rw [nodeT] at hfull ⊢
    omega

theorem exports_agree_iff_arcPair :
    SameGraph arcPair ↔ arcPair.num_arcs < 2 ^ 32 ∨ arcPair.num_arcs % 2 ^ 32 = 2 ^ 32 - 1 :=
  exports_agree_iff arcPair (by decide) (by decide)

/-- An arc from every node to every node. -/
def completeGraph (n : ℕ) : WebGraph where
  num_nodes := n
  successors _ := List.range n
  below _ _ _ hdst := List.mem_range.1 hdst
  distinct _ _ := List.nodup_range

theorem num_arcs_completeGraph (n : ℕ) : (completeGraph n).num_arcs = n * n := by
  simp [WebGraph.num_arcs, WebGraph.arcs, WebGraph.iter, completeGraph, List.length_flatMap,
    Function.comp_def]

/-- **All arcs dropped**: with `2 ^ 16` nodes, `part_ref` reads the number `0` of arcs. -/
theorem completeGraph_not_same :
    (MDP_read byteReader 0 (bytes (ArcsValmari.text (completeGraph (2 ^ 16))).toList)).map
        MDP.w_trans = some [] ∧
      (completeGraph (2 ^ 16)).graph.edges.length = 2 ^ 32 ∧
        ¬ SameGraph (completeGraph (2 ^ 16)) := by
  have hn : (completeGraph (2 ^ 16)).num_nodes = 2 ^ 16 := rfl
  have harcs : (completeGraph (2 ^ 16)).num_arcs = 2 ^ 32 := num_arcs_completeGraph _
  have hread : MDP_read byteReader 0 (bytes (ArcsValmari.text (completeGraph (2 ^ 16))).toList) =
      some { exported (completeGraph (2 ^ 16)) with w_trans := [] } := by
    have hzero : nodeT (2 ^ 32) = 0 := by decide
    rw [MDP_read_text (by rw [hn]; decide) (by rw [hn]; decide), harcs, hzero, if_neg (by decide),
      List.take_zero]
  refine ⟨by rw [hread, Option.map_some], ?_, fun h => ?_⟩
  · rw [WebGraph.graph, List.length_map, ← WebGraph.num_arcs, harcs]
  · have hnil := (sameGraph_iff (by rw [hn]; decide)).1 h 0 _ hread
    have hlen := congrArg List.length hnil
    rw [arcTransitions, List.length_map, ← WebGraph.num_arcs, harcs] at hlen
    exact absurd hlen (by decide)

end Rbsc.Compare
