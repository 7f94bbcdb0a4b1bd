import Rbsc.BvGraph.Properties
import Rbsc.BvGraph.RoundTrip
import Rbsc.BvGraph.TaskQueue

/-!
# `parallel_iter`

The nodes are split into consecutive chunks, each thread compresses one as if its first node were
the first of all, and the bits of the chunks are put one behind the other in the order of the
chunks.  The bits of the nodes are written in the endianness `E`, and those of the offsets always
big-endian.

* `compress_chunk`: what a thread sends; `glue`: what is done with its job;
* `split_flatten`: the chunks of `split_iter` make up the graph;
* `parallel_encoded`: for every order in which the threads finish, the bits and the offsets are
  those of the graph, with references that stay inside the chunks.
-/

namespace Rbsc.BvGraph

open Decoding

/-! ### `split::seq` -/

section

variable {α : Type}

/-- The lenders that `split::seq::Iter::next` still gives, with the one at hand in front of the
chunk that was given last. -/
def split_next (nodes_per_iter : ℕ) : ℕ → List α → List (List α)
  | 0, _ => []
  | remaining + 1, lender =>
    if lender.length < nodes_per_iter then []
    else
      let lender := lender.drop nodes_per_iter
      lender.take nodes_per_iter :: split_next nodes_per_iter remaining lender

/-- `split_iter` of the sequential graphs, for a positive number of lenders. -/
def split_iter (lender : List α) (how_many : ℕ) : List (List α) :=
  let nodes_per_iter := (lender.length + how_many - 1) / how_many
  lender.take nodes_per_iter :: split_next nodes_per_iter (how_many - 1) lender

theorem split_next_flatten (k r : ℕ) (l : List α) :
    ((split_next k r l).takeWhile (· ≠ [])).flatten = (l.drop k).take (r * k) := by
  induction r generalizing l with
  | zero => simp [split_next]
  | succ r ih =>
    rw [split_next]
    by_cases hlen : l.length < k
    · rw [if_pos hlen, List.drop_eq_nil_of_le hlen.le]
      simp
    rw [if_neg hlen]
    by_cases hnil : (l.drop k).take k = []
    · -- an empty chunk has no chunk with nodes behind it
      rw [List.takeWhile_cons_of_neg (by rw [hnil]; simp)]
      obtain hk | hd := List.take_eq_nil_iff.1 hnil
      · simp [hk]
      · simp [hd]
    · rw [List.takeWhile_cons_of_pos (by simpa using hnil), List.flatten_cons, ih,
        Nat.succ_mul, Nat.add_comm (r * k), List.take_add]

/-- The chunks up to the first empty one make up the list. -/
theorem split_flatten (l : List α) {how_many : ℕ} (h : 0 < how_many) :
    ((split_iter l how_many).takeWhile (· ≠ [])).flatten = l := by
  rw [split_iter]
  by_cases hnil : l = []
  · simp [hnil]
  generalize hk : (l.length + how_many - 1) / how_many = k
  have hlen : l.length ≤ k * how_many := by
    have := Nat.lt_mul_div_succ (l.length + how_many - 1) h
    rw [hk, Nat.mul_succ, Nat.mul_comm how_many] at this
    omega
  have hpos := List.length_pos_iff.2 hnil
  have hk0 : 0 < k := Nat.pos_of_ne_zero fun h0 => by
    rw [h0, Nat.zero_mul] at hlen
    omega
  have hrest : (l.drop k).length ≤ (how_many - 1) * k := by
    rw [List.length_drop, Nat.mul_comm, Nat.mul_sub_one]
    omega
  rw [List.takeWhile_cons_of_pos (by simp [hnil, hk0.ne']), List.flatten_cons, split_next_flatten,
    List.take_of_length_le hrest, List.take_append_drop]

end

/-! ### The threads -/

/-- `Job`, with the bits of its two files. -/
structure Job where
  job_id : ℕ
  first_node : ℕ
  last_node : ℕ
  chunk_graph : List Bool
  written_bits : ℕ
  chunk_offsets : List Bool
  offsets_written_bits : ℕ
  num_arcs : ℕ

section

/-- The codes of some numbers in an offsets file. -/
def write_gammas (dsi : DsiBitstream) (deltas : List ℕ) : List Bool :=
  deltas.flatMap (dsi.write .gamma)

variable (dsi : Endianness → DsiBitstream) (E : Endianness) (cf : CompFlags)

/-- A thread: the job that it sends, if its lender has a node. -/
def compress_chunk (thread_id : ℕ) : List (ℕ × List ℕ) → Option Job
  | [] => none
  | (node_id, successors) :: thread_lender =>
    let p := (BvComp.new cf.compression_window cf.max_ref_count cf.min_interval_length
      node_id).extend (dsi E) cf (successors :: thread_lender.map Prod.snd)
    some
      { job_id := thread_id
        first_node := node_id
        last_node := (thread_lender.map Prod.fst).getLastD node_id
        chunk_graph := E.order ((dsi E).flush p.1.encoder)
        written_bits := p.2.sum
        chunk_offsets := Endianness.order .BE ((dsi .BE).flush (write_gammas (dsi .BE) p.2))
        offsets_written_bits := (write_gammas (dsi .BE) p.2).length
        num_arcs := p.1.arcs }

/-- The jobs of all threads. -/
def thread_jobs (lenders : List (List (ℕ × List ℕ))) : List Job :=
  lenders.zipIdx.filterMap fun p => compress_chunk dsi E cf p.2 p.1

/-- The locals of the loop over the jobs. -/
structure Glued where
  graph_writer : List Bool
  offsets_writer : List Bool
  total_written_bits : ℕ
  total_offsets_written_bits : ℕ
  total_arcs : ℕ
  next_node : ℕ

/-- `copy_from`: the first bits of a stream. -/
def copy_from (bits : List Bool) (n : ℕ) : Option (List Bool) :=
  if n ≤ bits.length then some (bits.take n) else none

/-- The body of the loop; lenders that are not adjacent are an error. -/
def glue (r : Glued) (job : Job) : Option Glued := do
  if job.first_node ≠ r.next_node then none
  else
    let graph ← copy_from (E.order job.chunk_graph) job.written_bits
    let offsets ← copy_from (Endianness.order .BE job.chunk_offsets) job.offsets_written_bits
    some
      { graph_writer := r.graph_writer ++ graph
        offsets_writer := r.offsets_writer ++ offsets
        total_written_bits := r.total_written_bits + job.written_bits
        total_offsets_written_bits := r.total_offsets_written_bits + job.offsets_written_bits
        total_arcs := r.total_arcs + job.num_arcs
        next_node := job.last_node + 1 }

/-- The loop of `parallel_iter` over the jobs in the order in which the threads send them. -/
def parallel_iter (arrivals : List Job) : Option Glued := do
  let jobs ← collect (TaskQueue.step Job.job_id) (arrivals.length + 1) (.new arrivals)
  jobs.foldlM (glue E) ⟨[], (dsi .BE).write .gamma 0, 0, 0, 0, 0⟩

end

/-! ### The layout of the chunks -/

section

variable {w max_ref_count : ℕ} {succ : ℕ → List ℕ}

/-- References that stay at `lo` and above count only each other. -/
theorem depth_congr_from {delta delta' : ℕ → ℕ} {lo node : ℕ} (hlo : lo ≤ node)
    (hfirst : ∀ i, lo ≤ i → i ≤ node → lo + delta i ≤ i)
    (h : ∀ i, lo ≤ i → i ≤ node → delta i = delta' i) : depth delta node = depth delta' node := by
  induction node using Nat.strong_induction_on with
  | _ node ih =>
    rw [depth.eq_def delta, depth.eq_def delta', ← h node hlo le_rfl]
    by_cases hd : 0 < delta node ∧ delta node ≤ node
    · have := hfirst node hlo le_rfl
      rw [if_pos hd, if_pos hd, ih (node - delta node) (by omega) (by omega)
        (fun i h1 h2 => hfirst i h1 (by omega)) fun i h1 h2 => h i h1 (by omega)]
    · rw [if_neg hd, if_neg hd]

/-- A chunk behind others. -/
theorem Layout.append {lo n k : ℕ} {delta delta' : ℕ → ℕ}
    (h : Layout w max_ref_count succ lo n delta)
    (h' : Layout w max_ref_count succ (lo + n) k delta') :
    Layout w max_ref_count succ lo (n + k) fun i => if i < lo + n then delta i else delta' i := by
  refine ⟨fun i h1 h2 => ?_, fun i h1 h2 => ?_, fun i h1 h2 => ?_, fun i h1 h2 => ?_⟩ <;>
    by_cases hi : i < lo + n
  · simpa [hi] using h.window i h1 hi
  · simpa [hi] using h'.window i (by omega) (by omega)
  · simpa [hi] using h.first i h1 hi
  · have := h'.first i (by omega) (by omega)
    simp only [hi, if_false]
    omega
  · have hsame : depth delta i = depth (fun j => if j < lo + n then delta j else delta' j) i :=
      depth_congr fun j hj => (if_pos (by omega)).symm
    exact hsame ▸ h.depth_le i h1 hi
  · have hsame : depth delta' i = depth (fun j => if j < lo + n then delta j else delta' j) i :=
      depth_congr_from (not_lt.1 hi) (fun j h3 h4 => h'.first j h3 (by omega))
        fun j h3 _ => (if_neg (not_lt.2 h3)).symm
    exact hsame ▸ h'.depth_le i (by omega) (by omega)
  · simpa [hi] using h.target i h1 hi
  · simpa [hi] using h'.target i (by omega) (by omega)

end

/-! ### Gluing -/

section

variable (dsi : DsiBitstream) (cf : CompFlags) (succ : ℕ → List ℕ)

/-- What a lender gives that has `n` nodes from `lo` on. -/
def chunk (lo n : ℕ) : List (ℕ × List ℕ) := (List.range' lo n).map fun i => (i, succ i)

theorem chunk_append (lo n k : ℕ) :
    chunk succ lo (n + k) = chunk succ lo n ++ chunk succ (lo + n) k := by
  rw [chunk, ← List.range'_append_1, List.map_append]
  rfl

/-- The bits of `n` nodes from `lo` on. -/
def chunk_bits (delta : ℕ → ℕ) (lo n : ℕ) : List Bool :=
  cf.encode dsi
    (stream_calls dsi cf.compression_window cf.min_interval_length succ delta lo n)

/-- Their offsets. -/
def chunk_deltas (delta : ℕ → ℕ) (lo n : ℕ) : List ℕ :=
  (List.range' lo n).map
    (node_bits dsi cf cf.compression_window cf.min_interval_length succ delta)

/-- The locals after the `n` nodes from the next node on have been glued to what there was, with
`dsi'` for the offsets. -/
def glued (dsi' : DsiBitstream) (delta : ℕ → ℕ) (r : Glued) (n : ℕ) : Glued where
  graph_writer := r.graph_writer ++ chunk_bits dsi cf succ delta r.next_node n
  offsets_writer := r.offsets_writer ++
    write_gammas dsi' (chunk_deltas dsi cf succ delta r.next_node n)
  total_written_bits := r.total_written_bits + (chunk_bits dsi cf succ delta r.next_node n).length
  total_offsets_written_bits := r.total_offsets_written_bits +
    (write_gammas dsi' (chunk_deltas dsi cf succ delta r.next_node n)).length
  total_arcs := r.total_arcs + ((List.range' r.next_node n).map fun i => (succ i).length).sum
  next_node := r.next_node + n

variable {dsi cf succ} {dsi' : DsiBitstream}

theorem chunk_bits_append {delta delta' : ℕ → ℕ} (lo n k : ℕ) :
    chunk_bits dsi cf succ (fun i => if i < lo + n then delta i else delta' i) lo (n + k) =
      chunk_bits dsi cf succ delta lo n ++ chunk_bits dsi cf succ delta' (lo + n) k := by
  rw [chunk_bits, stream_calls_append, CompFlags.encode_append,
    stream_calls_congr fun i _ hi => if_pos hi,
    stream_calls_congr fun i hi _ => if_neg (not_lt.2 hi)]
  rfl

theorem chunk_deltas_append {delta delta' : ℕ → ℕ} (lo n k : ℕ) :
    chunk_deltas dsi cf succ (fun i => if i < lo + n then delta i else delta' i) lo (n + k) =
      chunk_deltas dsi cf succ delta lo n ++ chunk_deltas dsi cf succ delta' (lo + n) k := by
  rw [chunk_deltas, ← List.range'_append_1, List.map_append]
  congr 1 <;> refine List.map_congr_left fun i hi => ?_ <;>
    have := List.mem_range'_1.1 hi
  · rw [node_bits, if_pos this.2]
    rfl
  · rw [node_bits, if_neg (not_lt.2 this.1)]
    rfl

theorem glued_glued {delta delta' : ℕ → ℕ} (r : Glued) (n k : ℕ) :
    glued dsi cf succ dsi' delta' (glued dsi cf succ dsi' delta r n) k =
      glued dsi cf succ dsi' (fun i => if i < r.next_node + n then delta i else delta' i) r
        (n + k) := by
  simp only [glued, chunk_bits_append, chunk_deltas_append, write_gammas, List.flatMap_append,
    List.append_assoc, List.length_append, Nat.add_assoc, ← List.range'_append_1, List.map_append,
    List.sum_append]

theorem copy_from_flush (E : Endianness) (bits : List Bool) :
    copy_from (E.order (E.order (dsi.flush bits))) bits.length = some bits := by
  obtain ⟨rest, hrest⟩ := dsi.prefix_flush bits
  rw [E.order_order, ← hrest, copy_from, if_pos (by simp), List.take_left]

/-- One thread, and what is done with its job. -/
theorem compress_chunk_spec (dsi : Endianness → DsiBitstream) (E : Endianness) (cf : CompFlags)
    (succ : ℕ → List ℕ) (thread_id lo : ℕ) {n : ℕ} (hn : 0 < n) :
    ∃ delta job, compress_chunk dsi E cf thread_id (chunk succ lo n) = some job ∧
      Layout cf.compression_window cf.max_ref_count succ lo n delta ∧
      ∀ r : Glued, r.next_node = lo →
        glue E r job = some (glued (dsi E) cf succ (dsi .BE) delta r n) := by
  obtain ⟨delta, hd, hbits⟩ := extend_new (dsi E) cf cf.compression_window cf.min_interval_length
    cf.max_ref_count lo succ n
  have hsum : (chunk_deltas (dsi E) cf succ delta lo n).sum =
      (chunk_bits (dsi E) cf succ delta lo n).length := (length_encode_stream ..).symm
  have hchunk : chunk succ lo n = (lo, succ lo) :: chunk succ (lo + 1) (n - 1) := by
    have := chunk_append succ lo 1 (n - 1)
    rwa [Nat.add_sub_cancel' hn] at this
  have hlists : succ lo :: (chunk succ (lo + 1) (n - 1)).map Prod.snd =
      (List.range' lo n).map succ := by
    have := congrArg (List.map Prod.snd) hchunk
    simpa [chunk, Function.comp_def] using this.symm
  have hlast : ((chunk succ (lo + 1) (n - 1)).map Prod.fst).getLastD lo + 1 = lo + n := by
    have hfst : (chunk succ (lo + 1) (n - 1)).map Prod.fst = List.range' (lo + 1) (n - 1) := by
      simp [chunk, Function.comp_def]
    rw [hfst]
    obtain rfl | hn1 : n = 1 ∨ 1 < n := by omega
    · rfl
    · obtain ⟨k, rfl⟩ : ∃ k, n = k + 2 := ⟨n - 2, by omega⟩
      rw [show k + 2 - 1 = k + 1 by omega, List.range'_1_concat, List.getLastD_concat]
      omega
  rw [hchunk, compress_chunk, hlists]
  refine ⟨delta, _, rfl, hd.layout, fun r hr => ?_⟩
  have henc := hd.encoder
  have harcs := hd.arcs
  rw [Nat.add_sub_cancel_left] at henc harcs
  have hgraph : copy_from (E.order (E.order ((dsi E).flush (chunk_bits (dsi E) cf succ delta lo n))))
      (chunk_deltas (dsi E) cf succ delta lo n).sum = some (chunk_bits (dsi E) cf succ delta lo n) := by
    rw [hsum, copy_from_flush]
  subst hr
  simp only [glue, hbits, henc, harcs, ne_eq, not_true, if_false]
  change (copy_from (E.order (E.order ((dsi E).flush
    (chunk_bits (dsi E) cf succ delta r.next_node n))))
    (chunk_deltas (dsi E) cf succ delta r.next_node n).sum).bind _ = _
  rw [hgraph]
  change (copy_from (Endianness.order .BE (Endianness.order .BE ((dsi .BE).flush
    (write_gammas (dsi .BE) (chunk_deltas (dsi E) cf succ delta r.next_node n)))))
    (write_gammas (dsi .BE) (chunk_deltas (dsi E) cf succ delta r.next_node n)).length).bind _ = _
  rw [copy_from_flush]
  simp only [Option.bind_some, hlast, glued, ← hsum]
  rfl

/-- **The loop over the jobs.**  The jobs of chunks that are not empty and that make up the nodes
from the next node on. -/
theorem foldlM_glue (dsi : Endianness → DsiBitstream) (E : Endianness) (cf : CompFlags)
    (succ : ℕ → List ℕ) (chunks : List (List (ℕ × List ℕ))) (thread_id n : ℕ) (r : Glued)
    (hne : ∀ c ∈ chunks, c ≠ []) (hflat : chunks.flatten = chunk succ r.next_node n) :
    ∃ (js : List Job) (delta : ℕ → ℕ), js.length = chunks.length ∧
      (∀ i c, chunks[i]? = some c → compress_chunk dsi E cf (thread_id + i) c = js[i]?) ∧
      js.foldlM (glue E) r = some (glued (dsi E) cf succ (dsi .BE) delta r n) ∧
      Layout cf.compression_window cf.max_ref_count succ r.next_node n delta := by
  induction chunks generalizing thread_id n r with
  | nil =>
    have hn : n = 0 := by
      have hlen := congrArg List.length hflat
      simpa [chunk] using hlen.symm
    subst hn
    refine ⟨[], fun _ => 0, rfl, by simp, ?_, ?_⟩
    · simp [glued, chunk_bits, chunk_deltas, stream_calls, CompFlags.encode, write_gammas]
    · constructor <;> intros <;> omega
  | cons c chunks ih =>
    have hc := hne c (List.mem_cons_self ..)
    -- the first chunk is a prefix of the nodes
    obtain ⟨a, k, rfl, rfl, hrest⟩ : ∃ a k, n = a + k ∧ c = chunk succ r.next_node a ∧
        chunks.flatten = chunk succ (r.next_node + a) k := by
      have hlen := congrArg List.length hflat
      simp only [List.flatten_cons, List.length_append, chunk, List.length_map,
        List.length_range'] at hlen
      refine ⟨c.length, n - c.length, by omega, ?_⟩
      have hn : n = c.length + (n - c.length) := by omega
      rw [List.flatten_cons, hn, chunk_append] at hflat
      exact List.append_inj hflat (by simp [chunk])
    have ha : 0 < a := Nat.pos_of_ne_zero fun h0 => hc (by simp [chunk, h0])
    obtain ⟨delta, job, hjob, hlayout, hglue⟩ := compress_chunk_spec dsi E cf succ thread_id
      r.next_node ha
    obtain ⟨js, delta', hlen, hjs, hfold, hlayout'⟩ := ih (thread_id + 1) k
      (glued (dsi E) cf succ (dsi .BE) delta r a) (List.forall_mem_cons.1 hne).2 hrest
    refine ⟨job :: js, _, by simp [hlen], fun i c hi => ?_, ?_, hlayout.append hlayout'⟩
    · cases i with
      | zero =>
        cases hi
        exact hjob
      | succ i =>
        rw [← Nat.add_assoc, Nat.add_right_comm]
        exact hjs i c hi
    · rw [List.foldlM_cons, hglue r rfl, ← glued_glued]
      exact hfold

theorem compress_chunk_id {dsi : Endianness → DsiBitstream} {E : Endianness} {thread_id : ℕ}
    {lender : List (ℕ × List ℕ)} {job : Job}
    (h : compress_chunk dsi E cf thread_id lender = some job) : job.job_id = thread_id := by
  cases lender with
  | nil => cases h
  | cons p lender =>
    cases h
    rfl

/-- **`parallel_iter`.**  Whatever the order in which the threads finish, what is written are the
nodes of the lenders in front of the first empty one, with references that stay inside the chunks;
lenders behind an empty one are dropped without an error. -/
theorem parallel_iter_eq (dsi : Endianness → DsiBitstream) (E : Endianness) (cf : CompFlags)
    (succ : ℕ → List ℕ) {n : ℕ} {lenders : List (List (ℕ × List ℕ))} {arrivals : List Job}
    (hflat : (lenders.takeWhile (· ≠ [])).flatten = chunk succ 0 n)
    (harr : arrivals.Perm (thread_jobs dsi E cf lenders)) :
    ∃ delta, parallel_iter dsi E arrivals =
        some (glued (dsi E) cf succ (dsi .BE) delta ⟨[], (dsi .BE).write .gamma 0, 0, 0, 0, 0⟩ n) ∧
      Layout cf.compression_window cf.max_ref_count succ 0 n delta := by
  have hne : ∀ c ∈ lenders.takeWhile (· ≠ []), c ≠ [] := fun c hc => by
    have := List.mem_takeWhile_imp hc
    rwa [decide_eq_true_eq] at this
  generalize hfront : lenders.takeWhile (· ≠ []) = front at hflat hne
  obtain ⟨js, delta, hlen, hjs, hfold, hlayout⟩ := foldlM_glue dsi E cf succ front 0 n
    ⟨[], (dsi .BE).write .gamma 0, 0, 0, 0, 0⟩
    hne hflat
  -- the job of each thread, if it sends one
  let item : ℕ → Option Job := fun i => lenders[i]?.bind (compress_chunk dsi E cf i)
  have hid : ∀ i x, item i = some x → x.job_id = i := fun i x hx => by
    obtain ⟨c, -, hc⟩ := Option.bind_eq_some_iff.1 hx
    exact compress_chunk_id hc
  have hmem : ∀ x, x ∈ arrivals ↔ item x.job_id = some x := fun x => by
    rw [harr.mem_iff, thread_jobs, List.mem_filterMap]
    constructor
    · rintro ⟨⟨c, i⟩, hc, hx⟩
      obtain rfl := compress_chunk_id hx
      exact Option.bind_eq_some_iff.2 ⟨c, List.mem_zipIdx_iff_getElem?.1 hc, hx⟩
    · intro hx
      obtain ⟨c, hc, hx⟩ := Option.bind_eq_some_iff.1 hx
      exact ⟨(c, x.job_id), List.mem_zipIdx_iff_getElem?.2 hc, hx⟩
  have happend : lenders = front ++ lenders.dropWhile (· ≠ []) := by
    rw [← hfront, List.takeWhile_append_dropWhile]
  have hitem : ∀ i (hi : i < js.length), item i = some js[i] := fun i hi => by
    have hi' : i < front.length := hlen ▸ hi
    have hc : lenders[i]? = some front[i] := by
      rw [happend, List.getElem?_append_left hi', List.getElem?_eq_getElem hi']
    have hjob := hjs i front[i] (List.getElem?_eq_getElem hi')
    rw [Nat.zero_add, List.getElem?_eq_getElem hi] at hjob
    exact Option.bind_eq_some_iff.2 ⟨_, hc, hjob⟩
  have hmiss : item js.length = none := by
    refine Option.bind_eq_none_iff.2 fun c hc => ?_
    rw [happend, hlen, List.getElem?_append_right le_rfl, Nat.sub_self, ← List.head?_eq_getElem?]
      at hc
    have hnot := List.head?_dropWhile_not (fun l : List (ℕ × List ℕ) => decide (l ≠ [])) lenders
    rw [hc] at hnot
    obtain rfl : c = [] := not_not.1 (of_decide_eq_false hnot)
    rfl
  have hle := TaskQueue.le_length hid (fun x hx => (hmem x).2 hx) fun i hi => ⟨_, hitem i hi⟩
  refine ⟨delta, ?_, hlayout⟩
  rw [parallel_iter, (TaskQueue.yields_new hid hmem hitem hmiss).collect (Nat.lt_succ_of_le hle)]
  exact hfold

end

end Rbsc.BvGraph
