import Rbsc.BvGraph.Files

/-!
# `to bvgraph`

The command that loads a graph and compresses it once more, with other flags and by any number of
threads.  Where the `.ef` file exists the graph is split by random access, elsewhere sequentially.

* `split_seq_eq`: the sequential lenders are the chunks of `split_iter`;
* `split_ra_eq`: those by random access are the same, unless one starts behind the end;
* `to_bvgraph_load`: what the command writes.
-/

namespace Rbsc.BvGraph

open Decoding

/-! ### The model -/

section

variable (dsi : DsiBitstream)

/-- `split::seq::Iter::next` after the first call, with the nodes of each lender. -/
def BvGraphSeq.split_seq_next (graph : BvGraphSeq) (nodes_per_iter : ℕ) :
    ℕ → Iter (List Bool) → Option (List (List (ℕ × List ℕ)))
  | 0, _ => some []
  | remaining + 1, lender => do
    match ← advanceBy (graph.next dsi) nodes_per_iter lender with
    | none => some []
    | some lender =>
      let nodes ← takeItems (graph.next dsi) nodes_per_iter lender
      (split_seq_next graph nodes_per_iter remaining lender).map (nodes :: ·)

/-- `split_iter` of a `BvGraphSeq`, for a positive number of lenders. -/
def BvGraphSeq.split_seq (graph : BvGraphSeq) (how_many : ℕ) :
    Option (List (List (ℕ × List ℕ))) := do
  let nodes_per_iter := (graph.number_of_nodes + how_many - 1) / how_many
  let nodes ← takeItems (graph.next dsi) nodes_per_iter graph.iter
  (graph.split_seq_next dsi nodes_per_iter (how_many - 1) graph.iter).map (nodes :: ·)

/-- `split::ra::Iter::next` from its `i` on, with the nodes of each lender. -/
def BvGraphSeq.split_ra_next (graph : BvGraphSeq) (efs : List ℕ) (max_ref_count nodes_per_iter : ℕ) :
    ℕ → ℕ → Option (List (List (ℕ × List ℕ)))
  | 0, _ => some []
  | remaining + 1, i => do
    -- the position of the decoder, which is that of no node behind the end
    let _ ← efs[i * nodes_per_iter]?
    let lender ← graph.iter_from dsi efs max_ref_count (i * nodes_per_iter)
    let nodes ← takeItems (graph.next dsi) nodes_per_iter lender
    (split_ra_next graph efs max_ref_count nodes_per_iter remaining (i + 1)).map (nodes :: ·)

/-- `split_iter` of a `BvGraph`, whose offsets are `efs`. -/
def BvGraphSeq.split_ra (graph : BvGraphSeq) (efs : List ℕ) (max_ref_count how_many : ℕ) :
    Option (List (List (ℕ × List ℕ))) :=
  graph.split_ra_next dsi efs max_ref_count ((graph.number_of_nodes + how_many - 1) / how_many)
    how_many 0

end

/-- The command without a permutation: `endianness` is that of the graph to write, by default that
of the source, `ef` the `.ef` file, if there is one, and `arrive` the order in which the threads
finish. -/
def to_bvgraph [CodesEq] (dsi : Endianness → DsiBitstream) (ca : CompFlags)
    (endianness : Option Endianness) (num_threads : ℕ) (arrive : List Job → List Job)
    (ef : Option (List ℕ)) (max_ref_count : ℕ) (files : Files) : Option Files := do
  let E ← CompFlags.get_endianness files.properties
  let graph ← BvGraphSeq.load E files
  let target_endianness := endianness.getD E
  let lenders ←
    match ef with
    | some efs => graph.split_ra (dsi E) efs max_ref_count num_threads
    | none => graph.split_seq (dsi E) num_threads
  parallel_graph dsi target_endianness ca graph.number_of_nodes
    (arrive (thread_jobs dsi target_endianness ca lenders))

/-! ### The lenders -/

section

variable {dsi : DsiBitstream} {graph : BvGraphSeq} {l : List (ℕ × List ℕ)}

theorem split_seq_next_eq {it : Iter (List Bool)} (h : Yields (graph.next dsi) l it) (k r : ℕ) :
    graph.split_seq_next dsi k r it = some (split_next k r l) := by
  induction r generalizing l it with
  | zero => rfl
  | succ r ih =>
    rw [BvGraphSeq.split_seq_next, split_next]
    by_cases hlen : l.length < k
    · simp [h.advanceBy_none hlen, hlen]
    · obtain ⟨it', hadvance, hdrop⟩ := h.advanceBy (not_lt.1 hlen)
      simp [hadvance, hdrop.takeItems, ih hdrop, hlen]

/-- **Sequential access.** -/
theorem split_seq_eq (h : Yields (graph.next dsi) l graph.iter)
    (hn : graph.number_of_nodes = l.length) (how_many : ℕ) :
    graph.split_seq dsi how_many = some (split_iter l how_many) := by
  rw [BvGraphSeq.split_seq, split_iter, hn]
  simp [h.takeItems, split_seq_next_eq h]

/-- The chunks after the first, by their places, when none starts behind the end. -/
theorem split_next_eq_map {α : Type} (k r i : ℕ) (l : List α) (h : (i + r) * k ≤ l.length) :
    split_next k r (l.drop (i * k)) =
      (List.range' (i + 1) r).map fun j => (l.drop (j * k)).take k := by
  induction r generalizing i with
  | zero => rfl
  | succ r ih =>
    have hle : (i + 1) * k ≤ l.length := le_trans (Nat.mul_le_mul_right k (by omega)) h
    have hlen : ¬ (l.drop (i * k)).length < k := by
      rw [List.length_drop]
      rw [Nat.succ_mul] at hle
      omega
    have hdrop : (l.drop (i * k)).drop k = l.drop ((i + 1) * k) := by
      rw [List.drop_drop, ← Nat.succ_mul]
    have hrest := ih (i + 1) (by rwa [Nat.add_right_comm, Nat.add_assoc])
    rw [split_next, if_neg hlen, List.range'_succ, List.map_cons]
    dsimp only
    rw [hdrop, hrest]

theorem split_iter_eq_map {α : Type} {l : List α} {how_many : ℕ} (h0 : 0 < how_many)
    (h : (how_many - 1) * ((l.length + how_many - 1) / how_many) ≤ l.length) :
    split_iter l how_many = (List.range' 0 how_many).map fun j =>
      (l.drop (j * ((l.length + how_many - 1) / how_many))).take
        ((l.length + how_many - 1) / how_many) := by
  obtain ⟨r, rfl⟩ : ∃ r, how_many = r + 1 := ⟨how_many - 1, by omega⟩
  rw [Nat.add_sub_cancel] at h
  have hnext := split_next_eq_map _ r 0 l (by rwa [Nat.zero_add])
  rw [Nat.zero_mul, List.drop_zero] at hnext
  rw [split_iter, Nat.add_sub_cancel r 1, hnext, List.range'_succ, List.map_cons, Nat.zero_mul,
    List.drop_zero]

variable {efs : List ℕ} {max_ref_count : ℕ}

theorem split_ra_next_eq (hefs : efs.length = l.length + 1)
    (h : ∀ start ≤ l.length, ∃ it, graph.iter_from dsi efs max_ref_count start = some it ∧
      Yields (graph.next dsi) (l.drop start) it) (k r i : ℕ) :
    graph.split_ra_next dsi efs max_ref_count k r i =
      if ∀ j ∈ List.range' i r, j * k ≤ l.length then
        some ((List.range' i r).map fun j => (l.drop (j * k)).take k)
      else none := by
  induction r generalizing i with
  | zero => simp [BvGraphSeq.split_ra_next]
  | succ r ih =>
    rw [BvGraphSeq.split_ra_next, List.range'_succ]
    by_cases hi : i * k ≤ l.length
    · obtain ⟨it, hfrom, hy⟩ := h _ hi
      have hpos : efs[i * k]? = some efs[i * k] := List.getElem?_eq_getElem (by omega)
      simp only [hpos, hfrom, hy.takeItems, ih, Option.bind_eq_bind, Option.bind_some,
        List.forall_mem_cons, hi, true_and]
      split_ifs <;> rfl
    · have hpos : efs[i * k]? = none := List.getElem?_eq_none (by omega)
      rw [if_neg fun hall => hi (hall i List.mem_cons_self), hpos]
      rfl

/-- **Random access.**  The lenders are the sequential ones, unless the last one starts behind the
end. -/
theorem split_ra_eq (hefs : efs.length = l.length + 1)
    (h : ∀ start ≤ l.length, ∃ it, graph.iter_from dsi efs max_ref_count start = some it ∧
      Yields (graph.next dsi) (l.drop start) it) (hn : graph.number_of_nodes = l.length)
    {how_many : ℕ} (h0 : 0 < how_many) :
    graph.split_ra dsi efs max_ref_count how_many =
      if (how_many - 1) * ((l.length + how_many - 1) / how_many) ≤ l.length then
        some (split_iter l how_many)
      else none := by
  rw [BvGraphSeq.split_ra, hn, split_ra_next_eq hefs h]
  generalize hk : (l.length + how_many - 1) / how_many = k
  have hiff : (∀ j ∈ List.range' 0 how_many, j * k ≤ l.length) ↔ (how_many - 1) * k ≤ l.length := by
    refine ⟨fun hall => hall _ (List.mem_range'_1.2 (by omega)), fun hlast j hj => ?_⟩
    have := (List.mem_range'_1.1 hj).2
    exact le_trans (Nat.mul_le_mul_right k (by omega)) hlast
  rw [if_congr hiff rfl rfl]
  split_ifs with hlast
  · rw [split_iter_eq_map h0 (hk.symm ▸ hlast), hk]
  · rfl

end

/-! ### The command -/

section

variable {cf ca : CompFlags} {g : WebGraph} {how_many num_threads : ℕ} {arrivals : List Job}

/-- **`to bvgraph`.**  From the big-endian files of `parallel_graph` the command writes, with any
flags, number of threads and order in which they finish, files that are loaded as the same graph,
unless it is asked for little-endian ones: those are not loaded as such.  With the `.ef` file it
writes the same ones, but fails when it has a thread that starts behind the end. -/
theorem to_bvgraph_load [CodesEq] (dsi : Endianness → DsiBitstream)
    (endianness : Option Endianness) (h : Sorted g) (hr : Readable cf g)
    (hk : cf.reread.code = cf.code) (h0 : 0 < how_many)
    (harr : arrivals.Perm (thread_jobs dsi .BE cf (split_iter g.iter how_many))) {files : Files}
    (hfiles : parallel_graph dsi .BE cf g.num_nodes arrivals = some files)
    (hlen : files.graph.length < CODE_MAX) (hr' : Readable ca g)
    (hk' : ca.reread.code = ca.code) (h0' : 0 < num_threads) {arrive : List Job → List Job}
    (hperm : ∀ jobs, (arrive jobs).Perm jobs) :
    ∃ files' graph efs, (∀ max_ref_count,
        to_bvgraph dsi ca endianness num_threads arrive none max_ref_count files = some files') ∧
      BvGraphSeq.load .LE files' = none ∧ BvGraphSeq.load .BE files' = some graph ∧
      graph.number_of_nodes = g.num_nodes ∧ graph.number_of_arcs = g.num_arcs ∧
      (endianness ≠ some .LE → Yields (graph.next (dsi .BE)) g.iter graph.iter) ∧
      build_eliasfano_from_offsets (dsi .BE) g.num_nodes files.offsets = some efs ∧
      to_bvgraph dsi ca endianness num_threads arrive (some efs) cf.max_ref_count files =
        if (num_threads - 1) * ((g.num_nodes + num_threads - 1) / num_threads) ≤ g.num_nodes then
          some files'
        else none := by
  obtain ⟨source, bits, deltas, delta, hsource, hf⟩ := parallel_graph_holds hr hk h0 harr
  obtain rfl : source = files := Option.some.inj (hsource.symm.trans hfiles)
  obtain ⟨files', bits', deltas', delta', hfiles', hf'⟩ :=
    parallel_graph_holds hr' hk' h0'
      (hperm (thread_jobs dsi (endianness.getD .BE) ca (split_iter g.iter num_threads)))
  have hcount : g.iter.length = g.num_nodes := by simp [WebGraph.iter]
  have hload : BvGraphSeq.load .BE source = some (source.loaded g cf.reread) := by
    rw [hf.load, if_pos rfl]
  have hnodes : (source.loaded g cf.reread).number_of_nodes = g.num_nodes := rfl
  have hseq := split_seq_eq (hf.yields h) hcount.symm num_threads
  have hra := split_ra_eq (by simp [hcount])
    (fun start hstart => hf.iter_from h (hcount ▸ hstart)) hcount.symm h0'
  refine ⟨files', files'.loaded g ca.reread, _, fun _ => ?_, hf'.load .LE, hf'.load .BE, rfl, rfl,
    fun htarget => ?_, hf.from_offsets hlen, ?_⟩
  · simp only [to_bvgraph, hf.endianness, hload, hseq, hnodes, Option.bind_eq_bind,
      Option.bind_some, hfiles']
  · have hbe : endianness.getD .BE = .BE := by
      rcases endianness with - | - | -
      · rfl
      · rfl
      · exact absurd rfl htarget
    rw [hbe] at hf'
    exact hf'.yields h
  · simp only [to_bvgraph, hf.endianness, hload, hra, hnodes, Option.bind_eq_bind,
      Option.bind_some, hcount]
    split_ifs
    · exact hfiles'
    · rfl

attribute [local instance] CompFlags.words_eq in
theorem twins_recompressed : ∃ files files' graph,
    parallel_graph gamma_streams .BE unary_flags 3 twins_arrivals = some files ∧
    to_bvgraph gamma_streams unary_flags none 2 id none 3 files = some files' ∧
    BvGraphSeq.load .BE files' = some graph ∧
    Yields (graph.next gamma_bits) twins.iter graph.iter := by
  obtain ⟨files, hfiles, hlen⟩ := twins_files
  obtain ⟨files', graph, efs, hto, -, hload, -, -, hy, -⟩ := to_bvgraph_load gamma_streams none
    twins_sorted twins_readable (funext fun c => by cases c <;> rfl) two_pos (List.reverse_perm _)
    hfiles hlen twins_readable (funext fun c => by cases c <;> rfl) two_pos
    (fun jobs => List.Perm.refl jobs)
  exact ⟨files, files', graph, hfiles, hto 3, hload, hy (by simp)⟩

end

end Rbsc.BvGraph
