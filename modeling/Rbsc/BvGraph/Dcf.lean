import Rbsc.BvGraph.Files

/-!
# `build dcf`

The command that sums up the outdegrees in an Elias-Fano list.  The list is set up for the number of
nodes and one, and for the number of arcs, both from the properties (`build_dcf_fits`).
-/

namespace Rbsc.BvGraph

open Decoding

/-- `build_dcf`: the numbers that are pushed. -/
def BvGraphSeq.build_dcf (dsi : DsiBitstream) (graph : BvGraphSeq) : Option (List ℕ) := do
  let items ← collect (OffsetDegIter.next (graph.comp_flags.decoder dsi) graph.get_pos)
    (graph.number_of_nodes + 1) graph.offset_deg_iter
  some (items.scanl (fun cumul_deg item => cumul_deg + item.2) 0)

variable {cf : CompFlags} {g : WebGraph}

/-- The number of arcs of the first nodes. -/
def arcs_before (g : WebGraph) (node : ℕ) : ℕ :=
  ((List.range' 0 node).map fun i => (g.successors i).length).sum

theorem arcs_before_mono : Monotone (arcs_before g) := by
  refine monotone_nat_of_le_succ fun node => ?_
  rw [arcs_before, arcs_before, List.range'_1_concat, List.map_append,
    List.sum_append]
  exact Nat.le_add_right _ _

theorem scanl_degrees (off : ℕ → ℕ) (n : ℕ) :
    ((List.range' 0 n).map fun i => (off i, (g.successors i).length)).scanl
        (fun cumul_deg item => cumul_deg + item.2) 0 =
      (List.range (n + 1)).map (arcs_before g) := by
  refine List.ext_getElem? fun node => ?_
  rw [List.getElem?_scanl, List.length_map, List.length_range', List.getElem?_map]
  by_cases hnode : node ≤ n
  · have htake : (List.range' 0 n).take node = List.range' 0 node := by
      obtain ⟨k, rfl⟩ := Nat.exists_eq_add_of_le hnode
      rw [← List.range'_append_1, List.take_left' (List.length_range' ..)]
    rw [if_pos hnode, List.getElem?_range (by omega), ← List.map_take, htake]
    refine congrArg some ?_
    rw [arcs_before, List.sum_eq_foldl, List.foldl_map, List.foldl_map]
  · rw [if_neg hnode, List.getElem?_eq_none (by simpa using hnode)]
    rfl

theorem Files.Holds.build_dcf [CodesEq] {dsi : Endianness → DsiBitstream} {flags : CompFlags}
    {max_ref_count : ℕ} {bits : List Bool} {deltas : List ℕ} {delta : ℕ → ℕ} {files : Files}
    (hf : Files.Holds dsi .BE .BE cf max_ref_count g flags bits deltas delta files) (h : Sorted g) :
    (files.loaded g flags).build_dcf (dsi .BE) =
      some ((List.range (g.num_nodes + 1)).map (arcs_before g)) := by
  obtain ⟨rest, hrest⟩ := hf.exists_rest
  obtain ⟨it', hg, hend, -⟩ := hf.encoded.degrees h rest
  rw [← hrest, ← hf.decoder] at hg
  have hy : Yields (OffsetDegIter.next (flags.decoder (dsi .BE)) (files.loaded g flags).get_pos) _
      (files.loaded g flags).offset_deg_iter := ⟨it', hg, it', if_pos hend⟩
  have hcollect := hy.collect (show _ < g.num_nodes + 1 by simp)
  rw [BvGraphSeq.build_dcf, ← scanl_degrees]
  exact Option.bind_eq_some_iff.2 ⟨_, hcollect, rfl⟩

section

variable {how_many : ℕ} {arrivals : List Job}

/-- **Degrees.**  From the big-endian files of `parallel_graph` the numbers of arcs in front of each
node and of the end are pushed: as many as the list has room for, in order and none above the
bound. -/
theorem build_dcf_fits [CodesEq] (dsi : Endianness → DsiBitstream) (h : Sorted g)
    (hr : Readable cf g) (hk : cf.reread.code = cf.code) (h0 : 0 < how_many)
    (harr : arrivals.Perm (thread_jobs dsi .BE cf (split_iter g.iter how_many))) :
    ∃ files graph dcf, parallel_graph dsi .BE cf g.num_nodes arrivals = some files ∧
      BvGraphSeq.load .BE files = some graph ∧ graph.build_dcf (dsi .BE) = some dcf ∧
      (∀ node ≤ g.num_nodes, dcf[node]? = some (arcs_before g node)) ∧
      dcf.length = graph.number_of_nodes + 1 ∧ dcf.Pairwise (· ≤ ·) ∧
      (∀ d ∈ dcf, d ≤ graph.number_of_arcs) ∧ dcf.getLast? = some g.num_arcs := by
  obtain ⟨files, bits, deltas, delta, hfiles, hf⟩ := parallel_graph_holds hr hk h0 harr
  have hlast : arcs_before g g.num_nodes = g.num_arcs := (num_arcs_eq g).symm
  refine ⟨files, files.loaded g cf.reread, _, hfiles, by rw [hf.load, if_pos rfl], hf.build_dcf h,
    fun node hnode => ?_, by simp [Files.loaded], ?_, fun d hd => ?_, ?_⟩
  · rw [List.getElem?_map, List.getElem?_range (Nat.lt_succ_of_le hnode)]
    rfl
  · rw [List.pairwise_map]
    exact List.pairwise_lt_range.imp fun hlt => arcs_before_mono hlt.le
  · obtain ⟨node, hnode, rfl⟩ := List.mem_map.1 hd
    exact (arcs_before_mono (Nat.lt_succ_iff.1 (List.mem_range.1 hnode))).trans_eq hlast
  · rw [List.range_succ, List.map_append, List.map_singleton, List.getLast?_concat, hlast]

attribute [local instance] CompFlags.words_eq in
theorem twins_dcf : ∃ files graph dcf,
    parallel_graph gamma_streams .BE unary_flags 3 twins_arrivals = some files ∧
    BvGraphSeq.load .BE files = some graph ∧ graph.build_dcf gamma_bits = some dcf ∧
    dcf[3]? = some 4 ∧ dcf.Pairwise (· ≤ ·) := by
  obtain ⟨files, graph, dcf, hfiles, hload, hdcf, hat, -, hsorted, -⟩ :=
    build_dcf_fits gamma_streams twins_sorted twins_readable (funext fun c => by cases c <;> rfl)
      two_pos (show twins_arrivals.Perm _ from List.reverse_perm _)
  exact ⟨files, graph, dcf, hfiles, hload, hdcf, hat 3 le_rfl, hsorted⟩

end

end Rbsc.BvGraph
