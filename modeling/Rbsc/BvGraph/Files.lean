import Rbsc.BvGraph.Parallel
import Rbsc.BvGraph.Properties

/-!
# The files of a graph

What `parallel_graph` and `single_thread` write, and what the loaders make of it.  The properties
say big-endian whatever the endianness of the bits, so that little-endian bits are not loaded as such.

* `parallel_graph_holds`: the files of `parallel_graph`, for every endianness, number of threads and
  order in which they finish;
* `parallel_graph_load`: the graph that is loaded from them, read sequentially;
* `parallel_graph_random`: both ways to build the offsets, and random access with them;
* `single_thread_load`: `single_thread` encodes with the default codes, whatever its flags say.
-/

namespace Rbsc.BvGraph

open Decoding

/-- The files of a graph: the bits of two and the lines of the third. -/
structure Files where
  graph : List Bool
  offsets : List Bool
  properties : List (String × List Char)

/-! ### Writing -/

section

variable (dsi : Endianness → DsiBitstream) (E : Endianness) (cf : CompFlags)

/-- `parallel_iter` and `parallel_graph`, for threads that finish in the order of `arrivals`; the
properties say big-endian whatever the endianness of the files. -/
def parallel_graph [CodesEq] (num_nodes : ℕ) (arrivals : List Job) : Option Files := do
  let r ← parallel_iter dsi E arrivals
  let properties ← cf.to_properties .BE num_nodes r.total_arcs r.total_written_bits
  some
    { graph := E.order ((dsi E).flush r.graph_writer)
      offsets := Endianness.order .BE ((dsi .BE).flush r.offsets_writer)
      properties := properties }

/-- `single_thread` with `build_offsets`, where `flushed` is the number that `flush` returns; here
the offsets have the endianness of the graph. -/
def single_thread [CodesEq] (flushed : ℕ) (lists : List (List ℕ)) : Option Files := do
  let p := (BvComp.new cf.compression_window cf.max_ref_count cf.min_interval_length 0).extend
    (dsi E) .default lists
  let properties ← cf.to_properties .BE lists.length p.1.arcs (p.2.sum + flushed)
  some
    { graph := E.order ((dsi E).flush p.1.encoder)
      offsets := E.order ((dsi E).flush (write_gammas (dsi E) (0 :: p.2)))
      properties := properties }

end

/-! ### Loading -/

section

variable (dsi : DsiBitstream)

/-- `BvGraphSeq`, with the bits and the flags of its factory. -/
structure BvGraphSeq where
  graph : List Bool
  comp_flags : CompFlags
  number_of_nodes : ℕ
  number_of_arcs : ℕ
  compression_window : ℕ
  min_interval_length : ℕ

/-- `load` for sequential access. -/
def BvGraphSeq.load [CodesEq] (E : Endianness) (files : Files) : Option BvGraphSeq := do
  let (num_nodes, num_arcs, comp_flags) ← CompFlags.parse_properties E files.properties
  some
    { graph := E.order files.graph
      comp_flags := comp_flags
      number_of_nodes := num_nodes
      number_of_arcs := num_arcs
      compression_window := comp_flags.compression_window
      min_interval_length := comp_flags.min_interval_length }

/-- `iter`. -/
def BvGraphSeq.iter (graph : BvGraphSeq) : Iter (List Bool) :=
  Iter.new graph.graph graph.number_of_nodes graph.compression_window graph.min_interval_length

/-- `next` on its iterators. -/
def BvGraphSeq.next (graph : BvGraphSeq) (it : Iter (List Bool)) :
    Option (Option (ℕ × List ℕ) × Iter (List Bool)) :=
  it.next dsi (graph.comp_flags.decoder dsi)

/-- `offset_deg_iter`. -/
def BvGraphSeq.offset_deg_iter (graph : BvGraphSeq) : OffsetDegIter (List Bool) :=
  .new graph.graph graph.number_of_nodes graph.compression_window graph.min_interval_length

/-- `get_pos`. -/
def BvGraphSeq.get_pos (graph : BvGraphSeq) (bits : List Bool) : ℕ :=
  graph.graph.length - bits.length

/-- The loop of `build_eliasfano_from_offsets`: the numbers that it pushes. -/
def push_offsets : ℕ → ℕ → StateT (List Bool) Option (List ℕ)
  | 0, _ => pure []
  | todo + 1, offset => do
    let delta ← dsi.read .gamma
    let offset := offset + delta
    let efs ← push_offsets todo offset
    pure (offset :: efs)

/-- `build_eliasfano_from_offsets`. -/
def build_eliasfano_from_offsets (num_nodes : ℕ) (offsets : List Bool) : Option (List ℕ) :=
  (push_offsets dsi (num_nodes + 1) 0 offsets).map Prod.fst

/-- The loop of `build_eliasfano_from_graph`: the offsets, and the position behind the last node. -/
def push_positions (graph : BvGraphSeq) : ℕ → OffsetDegIter (List Bool) → Option (List ℕ)
  | 0, _ => none
  | fuel + 1, it => do
    let (item, it) ← it.next (graph.comp_flags.decoder dsi) graph.get_pos
    match item with
    | none => some [graph.get_pos it.decoder]
    | some (new_offset, _) => (push_positions graph fuel it).map (new_offset :: ·)

/-- `build_eliasfano_from_graph`. -/
def build_eliasfano_from_graph (graph : BvGraphSeq) : Option (List ℕ) :=
  push_positions dsi graph (graph.number_of_nodes + 1) graph.offset_deg_iter

/-- `new_decoder` of the factory of a `BvGraph`, whose offsets are `efs`. -/
def BvGraphSeq.new_decoder (graph : BvGraphSeq) (efs : List ℕ) (node : ℕ) : List Bool :=
  graph.graph.drop (efs.getD node 0)

/-- `successors` of a `BvGraph`, with at most `max_ref_count` iterators behind the first. -/
def BvGraphSeq.successors (graph : BvGraphSeq) (efs : List ℕ) (max_ref_count node_id : ℕ) :
    Option (List ℕ) :=
  BvGraph.successors dsi (graph.comp_flags.decoder dsi) graph.compression_window
    graph.min_interval_length (graph.new_decoder efs) (max_ref_count + 1) node_id

/-- `iter_from` of a `BvGraph`. -/
def BvGraphSeq.iter_from (graph : BvGraphSeq) (efs : List ℕ) (max_ref_count start_node : ℕ) :
    Option (Iter (List Bool)) :=
  BvGraph.iter_from dsi (graph.comp_flags.decoder dsi) graph.number_of_nodes
    graph.compression_window graph.min_interval_length (graph.new_decoder efs) (max_ref_count + 1)
    start_node

/-- The command `build offsets`. -/
def BvGraphSeq.build_offsets (graph : BvGraphSeq) : Option (List Bool) :=
  (BvGraph.build_offsets (graph.comp_flags.decoder dsi) graph.get_pos (graph.number_of_nodes + 1) 0
    graph.offset_deg_iter).map fun deltas => dsi.flush (write_gammas dsi deltas)

end

/-! ### Reading the offsets -/

section

variable {dsi : DsiBitstream} {cf : CompFlags} {w m : ℕ} {succ : ℕ → List ℕ} {delta : ℕ → ℕ}

theorem supplies_gammas (dsi : DsiBitstream) {deltas : List ℕ} (hlt : ∀ d ∈ deltas, d < CODE_MAX)
    (rest : List Bool) :
    Supplies dsi.read (deltas.map fun d => (Codes.gamma, d)) (write_gammas dsi deltas ++ rest)
      rest := by
  induction deltas with
  | nil => rfl
  | cons d deltas ih =>
    obtain ⟨hd, hlt⟩ := List.forall_mem_cons.1 hlt
    refine ⟨write_gammas dsi deltas ++ rest, ?_, ih hlt⟩
    rw [write_gammas, List.flatMap_cons, List.append_assoc]
    exact dsi.read_write .gamma d _ hd

/-- The sums of the numbers are the offsets. -/
theorem push_offsets_reads (dsi : DsiBitstream) (cf : CompFlags) (w m : ℕ) (succ : ℕ → List ℕ)
    (delta : ℕ → ℕ) (node n : ℕ) :
    Reads dsi.read (push_offsets dsi n (offset dsi cf w m succ delta node))
      (((List.range' node n).map (node_bits dsi cf w m succ delta)).map fun d => (Codes.gamma, d))
      ((List.range' (node + 1) n).map (offset dsi cf w m succ delta)) := by
  induction n generalizing node with
  | zero => exact Reads.pure _
  | succ n ih =>
    have h := (ih (node + 1)).map fun efs => offset dsi cf w m succ delta (node + 1) :: efs
    rw [offset_succ] at h
    rw [List.range'_succ, List.map_cons, List.map_cons, List.range'_succ, List.map_cons, offset_succ]
    exact Reads.ask h

theorem build_eliasfano_from_offsets_eq (n : ℕ)
    (hlt : ∀ d ∈ (List.range n).map (node_bits dsi cf w m succ delta), d < CODE_MAX)
    (rest : List Bool) :
    build_eliasfano_from_offsets dsi n (write_gammas dsi
        (0 :: (List.range n).map (node_bits dsi cf w m succ delta)) ++ rest) =
      some ((List.range (n + 1)).map (offset dsi cf w m succ delta)) := by
  have hread : Reads dsi.read (push_offsets dsi (n + 1) 0)
      ((0 :: (List.range n).map (node_bits dsi cf w m succ delta)).map fun d => (Codes.gamma, d))
      ((List.range (n + 1)).map (offset dsi cf w m succ delta)) := by
    have h := (push_offsets_reads dsi cf w m succ delta 0 n).map fun efs => 0 :: efs
    rw [List.range_eq_range', List.range_eq_range', List.range'_succ, List.map_cons, List.map_cons]
    exact Reads.ask h
  have hzero : 0 < CODE_MAX := by decide
  have h := hread _ _ (supplies_gammas dsi (List.forall_mem_cons.2 ⟨hzero, hlt⟩) rest)
  rw [build_eliasfano_from_offsets, h]
  rfl

/-- The positions of the iterator over offsets and degrees are the offsets. -/
theorem push_positions_gives {graph : BvGraphSeq} (node n fuel : ℕ)
    {it it' : OffsetDegIter (List Bool)}
    (hg : Gives (OffsetDegIter.next (graph.comp_flags.decoder dsi) graph.get_pos)
      ((List.range' node n).map fun i => (offset dsi cf w m succ delta i, (succ i).length)) it it')
    (hend : it'.number_of_nodes ≤ it'.node_id)
    (hpos : graph.get_pos it'.decoder = offset dsi cf w m succ delta (node + n))
    (hfuel : n < fuel) :
    push_positions dsi graph fuel it =
      some ((List.range' node (n + 1)).map (offset dsi cf w m succ delta)) := by
  induction n generalizing node fuel it with
  | zero =>
    obtain ⟨fuel, rfl⟩ : ∃ k, fuel = k + 1 := ⟨fuel - 1, by omega⟩
    obtain rfl : it = it' := hg
    have hnext : it.next (graph.comp_flags.decoder dsi) graph.get_pos = some (none, it) :=
      if_pos hend
    simp [push_positions, hnext, hpos]
  | succ n ih =>
    obtain ⟨fuel, rfl⟩ : ∃ k, fuel = k + 1 := ⟨fuel - 1, by omega⟩
    obtain ⟨it₁, hnext, hg⟩ := hg
    have h := ih (node + 1) fuel hg (by rw [hpos]; congr 1; omega) (by omega)
    rw [List.range'_succ]
    simp [push_positions, hnext, h]

end

/-! ### Files that hold a graph -/

/-- The files hold the graph: its bits in the endianness `E`, in codes that are those of the flags
read back, and the number of bits of each node in the endianness `E'`.  The properties say
big-endian. -/
structure Files.Holds [CodesEq] (dsi : Endianness → DsiBitstream) (E E' : Endianness)
    (cf : CompFlags) (max_ref_count : ℕ) (g : WebGraph) (flags : CompFlags) (bits : List Bool)
    (deltas : List ℕ) (delta : ℕ → ℕ) (files : Files) : Prop where
  encoded : Encoded (dsi E) cf flags.compression_window max_ref_count flags.min_interval_length g
    bits deltas delta
  graph : files.graph = E.order ((dsi E).flush bits)
  offsets : files.offsets = E'.order ((dsi E').flush (write_gammas (dsi E') (0 :: deltas)))
  properties : ∀ E, CompFlags.parse_properties E files.properties =
    if E = .BE then some (g.num_nodes, g.num_arcs, flags) else none
  endianness : CompFlags.get_endianness files.properties = some .BE
  decoder : flags.decoder (dsi E) = cf.decoder (dsi E)

/-- The graph that is loaded then, as a big-endian one. -/
def Files.loaded (files : Files) (g : WebGraph) (flags : CompFlags) : BvGraphSeq where
  graph := files.graph
  comp_flags := flags
  number_of_nodes := g.num_nodes
  number_of_arcs := g.num_arcs
  compression_window := flags.compression_window
  min_interval_length := flags.min_interval_length

/-- The decoders of random access. -/
theorem Files.new_decoder_loaded {files : Files} (flags : CompFlags) {g : WebGraph}
    {off : ℕ → ℕ} {bits : List Bool} (hbits : files.graph = bits) :
    ∀ node ≤ g.num_nodes, (files.loaded g flags).new_decoder
      ((List.range (g.num_nodes + 1)).map off) node = bits.drop (off node) := by
  intro node hnode
  rw [BvGraphSeq.new_decoder, ← hbits, List.getD_eq_getElem _ _ (by simpa using hnode)]
  simp [Files.loaded]

namespace Files.Holds

variable [CodesEq] {dsi : Endianness → DsiBitstream} {cf flags : CompFlags} {max_ref_count : ℕ}
  {g : WebGraph} {bits : List Bool} {deltas : List ℕ} {delta : ℕ → ℕ} {files : Files}

/-- The properties decide which loader accepts the files. -/
theorem load {E₀ E₁ : Endianness}
    (hf : Files.Holds dsi E₀ E₁ cf max_ref_count g flags bits deltas delta files) (E : Endianness) :
    BvGraphSeq.load E files = if E = .BE then some (files.loaded g flags) else none := by
  rw [BvGraphSeq.load, hf.properties E]
  cases E <;> rfl

variable (hf : Files.Holds dsi .BE .BE cf max_ref_count g flags bits deltas delta files)
include hf

/-- What stands behind the bits of the nodes. -/
theorem exists_rest : ∃ rest, files.graph = bits ++ rest := by
  obtain ⟨rest, hrest⟩ := (dsi .BE).prefix_flush bits
  exact ⟨rest, by rw [hf.graph, hrest]; rfl⟩

theorem yields (h : Sorted g) :
    Yields ((files.loaded g flags).next (dsi .BE)) g.iter (files.loaded g flags).iter := by
  obtain ⟨rest, hrest⟩ := hf.exists_rest
  have hy := hf.encoded.iter h rest
  rw [← hrest, ← hf.decoder] at hy
  exact hy

/-- The offsets of all nodes, and of the end. -/
theorem from_offsets (hlen : files.graph.length < CODE_MAX) :
    build_eliasfano_from_offsets (dsi .BE) g.num_nodes files.offsets =
      some ((List.range (g.num_nodes + 1)).map (offset (dsi .BE) cf flags.compression_window
        flags.min_interval_length g.successors delta)) := by
  obtain ⟨rest, hrest⟩ := (dsi .BE).prefix_flush (write_gammas (dsi .BE) (0 :: deltas))
  obtain ⟨behind, hbehind⟩ := hf.exists_rest
  have hdeltas := hf.encoded.deltas_eq
  have hsum := hf.encoded.sum_deltas
  rw [hbehind, List.length_append] at hlen
  rw [hf.offsets, ← hrest, hdeltas]
  refine build_eliasfano_from_offsets_eq g.num_nodes (fun d hd => ?_) rest
  have := List.le_sum_of_mem (hdeltas ▸ hd)
  omega

theorem from_graph (h : Sorted g) :
    build_eliasfano_from_graph (dsi .BE) (files.loaded g flags) =
      some ((List.range (g.num_nodes + 1)).map (offset (dsi .BE) cf flags.compression_window
        flags.min_interval_length g.successors delta)) := by
  obtain ⟨rest, hrest⟩ := hf.exists_rest
  obtain ⟨it', hg, hend, hpos⟩ := hf.encoded.degrees h rest
  rw [← hrest, ← hf.decoder] at hg
  rw [← hrest] at hpos
  rw [List.range_eq_range']
  exact push_positions_gives 0 g.num_nodes (g.num_nodes + 1) hg hend
    (by rw [Nat.zero_add]; exact hpos) (Nat.lt_succ_self _)

theorem build_offsets (h : Sorted g) :
    (files.loaded g flags).build_offsets (dsi .BE) = some files.offsets := by
  obtain ⟨rest, hrest⟩ := hf.exists_rest
  have hb := hf.encoded.build_offsets h rest
  rw [← hrest, ← hf.decoder] at hb
  rw [hf.offsets]
  exact Option.map_eq_some_iff.2 ⟨_, hb, rfl⟩

theorem successors (h : Sorted g) {node : ℕ} (hnode : node < g.num_nodes) :
    (files.loaded g flags).successors (dsi .BE) ((List.range (g.num_nodes + 1)).map
        (offset (dsi .BE) cf flags.compression_window flags.min_interval_length g.successors delta))
      max_ref_count node = some (g.successors node) := by
  obtain ⟨rest, hrest⟩ := hf.exists_rest
  have hs := hf.encoded.successors (Files.new_decoder_loaded flags hrest) h hnode
  rw [← hf.decoder] at hs
  exact hs

theorem iter_from (h : Sorted g) {start : ℕ} (hstart : start ≤ g.num_nodes) :
    ∃ it, (files.loaded g flags).iter_from (dsi .BE) ((List.range (g.num_nodes + 1)).map
        (offset (dsi .BE) cf flags.compression_window flags.min_interval_length g.successors delta))
      max_ref_count start = some it ∧
      Yields ((files.loaded g flags).next (dsi .BE)) (g.iter.drop start) it := by
  obtain ⟨rest, hrest⟩ := hf.exists_rest
  have hs := hf.encoded.iter_from (Files.new_decoder_loaded flags hrest) h hstart
  rw [← hf.decoder] at hs
  exact hs

end Files.Holds

/-! ### The writers -/

section

variable {dsi : Endianness → DsiBitstream} {E : Endianness} {cf : CompFlags} {g : WebGraph}

theorem iter_eq_chunk (g : WebGraph) : g.iter = chunk g.successors 0 g.num_nodes := by
  rw [WebGraph.iter, chunk, List.range_eq_range']

theorem num_arcs_eq (g : WebGraph) :
    g.num_arcs = ((List.range' 0 g.num_nodes).map fun i => (g.successors i).length).sum := by
  simp [WebGraph.num_arcs, WebGraph.arcs, WebGraph.iter, List.length_flatMap,
    List.range_eq_range', List.map_map, Function.comp_def]

/-- What has a properties file that is read back. -/
structure Readable [CodesEq] (cf : CompFlags) (g : WebGraph) : Prop where
  supported : cf.Supported
  num_nodes_lt : g.num_nodes < 2 ^ 64
  num_arcs_lt : g.num_arcs < 2 ^ 64
  window_lt : cf.compression_window < 2 ^ 64
  interval_lt : cf.min_interval_length < 2 ^ 64

theorem Readable.exists_lines [CodesEq] (h : Readable cf g) (bitstream_len : ℕ) : ∃ lines,
    cf.to_properties .BE g.num_nodes g.num_arcs bitstream_len = some lines ∧
    CompFlags.get_endianness lines = some .BE ∧ ∀ E, CompFlags.parse_properties E lines =
      if E = .BE then some (g.num_nodes, g.num_arcs, cf.reread) else none := by
  obtain ⟨lines, hlines⟩ := Option.isSome_iff_exists.1
    ((CompFlags.to_properties_isSome .BE cf g.num_nodes g.num_arcs bitstream_len).2 h.supported)
  exact ⟨lines, hlines, CompFlags.get_endianness_written hlines, fun E =>
    CompFlags.parse_properties_written .BE E h.num_nodes_lt h.num_arcs_lt h.window_lt h.interval_lt
      hlines⟩

/-- `parallel_graph`. -/
theorem parallel_graph_holds [CodesEq] (hr : Readable cf g) (hk : cf.reread.code = cf.code)
    {how_many : ℕ} (h0 : 0 < how_many) {arrivals : List Job}
    (harr : arrivals.Perm (thread_jobs dsi E cf (split_iter g.iter how_many))) :
    ∃ files bits deltas delta, parallel_graph dsi E cf g.num_nodes arrivals = some files ∧
      Files.Holds dsi E .BE cf cf.max_ref_count g cf.reread bits deltas delta files := by
  obtain ⟨delta, hiter, hlayout⟩ := parallel_iter_eq dsi E cf g.successors
    (by rw [split_flatten _ h0, iter_eq_chunk]) harr
  obtain ⟨lines, hlines, hend, hparse⟩ := hr.exists_lines
    (chunk_bits (dsi E) cf g.successors delta 0 g.num_nodes).length
  refine ⟨⟨E.order ((dsi E).flush (chunk_bits (dsi E) cf g.successors delta 0 g.num_nodes)),
      Endianness.order .BE ((dsi .BE).flush (write_gammas (dsi .BE)
        (0 :: chunk_deltas (dsi E) cf g.successors delta 0 g.num_nodes))), lines⟩, _, _, delta, ?_,
    ⟨⟨hlayout, rfl, ?_⟩, rfl, rfl, hparse, hend, ?_⟩⟩
  · rw [parallel_graph, hiter]
    simp only [glued, Option.bind_eq_bind, Option.bind_some, Nat.zero_add, List.nil_append,
      ← num_arcs_eq, hlines]
    rfl
  · rw [chunk_deltas, List.range_eq_range']
    rfl
  · funext c
    rw [CompFlags.decoder, CompFlags.decoder, hk]

/-- `single_thread`: the codes are the default ones, and are read if the flags say so. -/
theorem single_thread_holds [CodesEq] (dsi : Endianness → DsiBitstream) (E : Endianness)
    (hr : Readable cf g) (hk : cf.reread.code = CompFlags.default.code) (flushed : ℕ) :
    ∃ files bits deltas delta, single_thread dsi E cf flushed (g.iter.map Prod.snd) = some files ∧
      Files.Holds dsi E E .default cf.max_ref_count g cf.reread bits deltas delta files := by
  obtain ⟨delta, e⟩ := written_encoded (dsi E) .default cf.compression_window cf.max_ref_count
    cf.min_interval_length g
  obtain ⟨lines, hlines, hend, hparse⟩ := hr.exists_lines ((written (dsi E) .default
    cf.compression_window cf.max_ref_count cf.min_interval_length g).2.sum + flushed)
  have hlen : (g.iter.map Prod.snd).length = g.num_nodes := by simp [WebGraph.iter]
  have harcs : (written (dsi E) .default cf.compression_window cf.max_ref_count cf.min_interval_length
      g).1.arcs = g.num_arcs := by
    obtain ⟨_, hd, -⟩ := written_spec (dsi E) .default cf.compression_window cf.max_ref_count
      cf.min_interval_length g
    rw [hd.arcs, num_arcs_eq, Nat.sub_zero]
  unfold written at e hlines harcs
  refine ⟨⟨_, _, lines⟩, _, _, delta, ?_, ⟨e, rfl, rfl, hparse, hend, ?_⟩⟩
  · simp only [single_thread, hlen, harcs, hlines]
    rfl
  · funext c
    rw [CompFlags.decoder, CompFlags.decoder, hk]

variable {how_many : ℕ} {arrivals : List Job}

/-- **Sequential access.**  What `parallel_graph` writes, with any number of threads that finish in
any order, is loaded as a big-endian graph only.  If it was written big-endian, it is the same
graph, with its number of arcs. -/
theorem parallel_graph_load [CodesEq] (dsi : Endianness → DsiBitstream) (E : Endianness)
    (h : Sorted g) (hr : Readable cf g) (hk : cf.reread.code = cf.code) (h0 : 0 < how_many)
    (harr : arrivals.Perm (thread_jobs dsi E cf (split_iter g.iter how_many))) :
    ∃ files graph, parallel_graph dsi E cf g.num_nodes arrivals = some files ∧
      BvGraphSeq.load .LE files = none ∧ BvGraphSeq.load .BE files = some graph ∧
      graph.number_of_nodes = g.num_nodes ∧ graph.number_of_arcs = g.num_arcs ∧
      (E = .BE → Yields (graph.next (dsi .BE)) g.iter graph.iter) := by
  obtain ⟨files, bits, deltas, delta, hfiles, hf⟩ := parallel_graph_holds hr hk h0 harr
  refine ⟨files, files.loaded g cf.reread, hfiles, hf.load .LE, hf.load .BE, rfl, rfl, ?_⟩
  rintro rfl
  exact hf.yields h

/-- γ and unary codes in both endiannesses. -/
def gamma_streams : Endianness → DsiBitstream
  | .BE => gamma_bits
  | .LE => little_gamma_bits

/-- The jobs of two threads, the second of which finishes first. -/
def twins_arrivals : List Job :=
  (thread_jobs gamma_streams .BE unary_flags (split_iter twins.iter 2)).reverse

theorem twins_readable [CodesEq] : Readable unary_flags twins where
  supported := ⟨by simp [CompFlags.defaults, unary_flags], by simp [unary_flags],
    fun k k' hk => by simp [CompFlags.codes, unary_flags] at hk⟩
  num_nodes_lt := by decide
  num_arcs_lt := by decide
  window_lt := by decide
  interval_lt := by decide

attribute [local instance] CompFlags.words_eq

theorem twins_load : ∃ files graph,
    parallel_graph gamma_streams .BE unary_flags 3 twins_arrivals = some files ∧
    BvGraphSeq.load .BE files = some graph ∧ graph.number_of_nodes = 3 ∧
    graph.number_of_arcs = 4 ∧
    Yields (graph.next gamma_bits) [(0, [1, 2]), (1, [1, 2]), (2, [])] graph.iter := by
  obtain ⟨files, graph, hfiles, -, hload, hn, hm, hy⟩ := parallel_graph_load gamma_streams .BE
    twins_sorted twins_readable (funext fun c => by cases c <;> rfl) two_pos (List.reverse_perm _)
  exact ⟨files, graph, hfiles, hload, hn, hm, hy rfl⟩

theorem twins_files : ∃ files,
    parallel_graph gamma_streams .BE unary_flags 3 twins_arrivals = some files ∧
      files.graph.length < CODE_MAX := by
  have hall : (parallel_graph gamma_streams .BE unary_flags 3 twins_arrivals).any
      (fun files => files.graph.length < CODE_MAX) = true := by
    decide +kernel
  obtain ⟨files, hfiles, hlen⟩ := (Option.any_eq_true ..).1 hall
  exact ⟨files, hfiles, of_decide_eq_true hlen⟩

/-- **Offsets.**  The offsets that are built from the offsets file and those that are built from the
graph are the same, and `build offsets` writes the offsets file once more. -/
theorem parallel_graph_offsets [CodesEq] (dsi : Endianness → DsiBitstream) (h : Sorted g)
    (hr : Readable cf g) (hk : cf.reread.code = cf.code) (h0 : 0 < how_many)
    (harr : arrivals.Perm (thread_jobs dsi .BE cf (split_iter g.iter how_many))) {files : Files}
    (hfiles : parallel_graph dsi .BE cf g.num_nodes arrivals = some files)
    (hlen : files.graph.length < CODE_MAX) :
    ∃ graph efs, BvGraphSeq.load .BE files = some graph ∧
      build_eliasfano_from_offsets (dsi .BE) g.num_nodes files.offsets = some efs ∧
      build_eliasfano_from_graph (dsi .BE) graph = some efs ∧ efs.length = g.num_nodes + 1 ∧
      graph.build_offsets (dsi .BE) = some files.offsets := by
  obtain ⟨files', bits, deltas, delta, hfiles', hf⟩ := parallel_graph_holds hr hk h0 harr
  obtain rfl : files' = files := Option.some.inj (hfiles'.symm.trans hfiles)
  exact ⟨files'.loaded g cf.reread, _, by rw [hf.load, if_pos rfl], hf.from_offsets hlen,
    hf.from_graph h, by simp, hf.build_offsets h⟩

theorem twins_offsets : ∃ files graph efs,
    parallel_graph gamma_streams .BE unary_flags 3 twins_arrivals = some files ∧
    BvGraphSeq.load .BE files = some graph ∧
    build_eliasfano_from_offsets gamma_bits 3 files.offsets = some efs ∧
    build_eliasfano_from_graph gamma_bits graph = some efs ∧ efs.length = 4 ∧
    graph.build_offsets gamma_bits = some files.offsets := by
  obtain ⟨files, hfiles, hlen⟩ := twins_files
  obtain ⟨graph, efs, h⟩ := parallel_graph_offsets gamma_streams twins_sorted twins_readable
    (funext fun c => by cases c <;> rfl) two_pos (List.reverse_perm _) hfiles hlen
  exact ⟨files, graph, efs, hfiles, h⟩

/-- **Random access.**  With these offsets, the successors of every node are read, and sequential
access can start at every node; no more than `max_ref_count` iterators stand behind each other. -/
theorem parallel_graph_random [CodesEq] (dsi : Endianness → DsiBitstream) (h : Sorted g)
    (hr : Readable cf g) (hk : cf.reread.code = cf.code) (h0 : 0 < how_many)
    (harr : arrivals.Perm (thread_jobs dsi .BE cf (split_iter g.iter how_many))) {files : Files}
    (hfiles : parallel_graph dsi .BE cf g.num_nodes arrivals = some files)
    (hlen : files.graph.length < CODE_MAX) :
    ∃ graph efs, BvGraphSeq.load .BE files = some graph ∧
      build_eliasfano_from_offsets (dsi .BE) g.num_nodes files.offsets = some efs ∧
      (∀ node < g.num_nodes,
        graph.successors (dsi .BE) efs cf.max_ref_count node = some (g.successors node)) ∧
      ∀ start ≤ g.num_nodes, ∃ it, graph.iter_from (dsi .BE) efs cf.max_ref_count start = some it ∧
        Yields (graph.next (dsi .BE)) (g.iter.drop start) it := by
  obtain ⟨files', bits, deltas, delta, hfiles', hf⟩ := parallel_graph_holds hr hk h0 harr
  obtain rfl : files' = files := Option.some.inj (hfiles'.symm.trans hfiles)
  exact ⟨files'.loaded g cf.reread, _, by rw [hf.load, if_pos rfl], hf.from_offsets hlen,
    fun node hnode => hf.successors h hnode, fun start hstart => hf.iter_from h hstart⟩

theorem twins_random : ∃ files graph efs,
    parallel_graph gamma_streams .BE unary_flags 3 twins_arrivals = some files ∧
    BvGraphSeq.load .BE files = some graph ∧
    build_eliasfano_from_offsets gamma_bits 3 files.offsets = some efs ∧
    (∀ node < 3, graph.successors gamma_bits efs 3 node = some (twins.successors node)) ∧
    ∀ start ≤ 3, ∃ it, graph.iter_from gamma_bits efs 3 start = some it ∧
      Yields (graph.next gamma_bits) (twins.iter.drop start) it := by
  obtain ⟨files, hfiles, hlen⟩ := twins_files
  obtain ⟨graph, efs, h⟩ := parallel_graph_random gamma_streams twins_sorted twins_readable
    (funext fun c => by cases c <;> rfl) two_pos (List.reverse_perm _) hfiles hlen
  exact ⟨files, graph, efs, hfiles, h⟩

/-- **`single_thread`.**  The codes are the default ones whatever the flags ask for, so that the
graph is read back where the flags, as they are read back, name the default codes.  Little-endian
files are not loaded as such here, either. -/
theorem single_thread_load [CodesEq] (dsi : Endianness → DsiBitstream) (E : Endianness)
    (h : Sorted g) (hr : Readable cf g) (hk : cf.reread.code = CompFlags.default.code) (flushed : ℕ) :
    ∃ files graph, single_thread dsi E cf flushed (g.iter.map Prod.snd) = some files ∧
      BvGraphSeq.load .LE files = none ∧ BvGraphSeq.load .BE files = some graph ∧
      graph.number_of_nodes = g.num_nodes ∧ graph.number_of_arcs = g.num_arcs ∧
      (E = .BE → Yields (graph.next (dsi .BE)) g.iter graph.iter ∧
        graph.build_offsets (dsi .BE) = some files.offsets) := by
  obtain ⟨files, bits, deltas, delta, hfiles, hf⟩ := single_thread_holds dsi E hr hk flushed
  refine ⟨files, files.loaded g cf.reread, hfiles, hf.load .LE, hf.load .BE, rfl, rfl, ?_⟩
  rintro rfl
  exact ⟨hf.yields h, hf.build_offsets h⟩

/-- Four successors in a row, which make an interval for the default flags. -/
def run_of_four : WebGraph where
  num_nodes := 5
  successors src := if src = 0 then [1, 2, 3, 4] else []
  below := by decide
  distinct := by decide

theorem run_of_four_load : ∃ files graph,
    single_thread gamma_streams .BE .default 0 [[1, 2, 3, 4], [], [], [], []] = some files ∧
    BvGraphSeq.load .BE files = some graph ∧ graph.number_of_nodes = 5 ∧
    graph.number_of_arcs = 4 ∧ Yields (graph.next gamma_bits) run_of_four.iter graph.iter ∧
    graph.build_offsets gamma_bits = some files.offsets := by
  have hreadable : Readable .default run_of_four :=
    ⟨⟨by simp [CompFlags.defaults, CompFlags.default], by simp [CompFlags.default],
      fun k k' hk hk' => by simp_all [CompFlags.codes, CompFlags.default]⟩, by decide, by decide,
      by decide, by decide⟩
  obtain ⟨files, graph, hfiles, -, hload, hn, hm, hy⟩ := single_thread_load gamma_streams .BE
    (g := run_of_four) ⟨by decide, by decide⟩ hreadable (funext fun c => by cases c <;> rfl) 0
  exact ⟨files, graph, hfiles, hload, hn, hm, hy rfl⟩

end

end Rbsc.BvGraph
