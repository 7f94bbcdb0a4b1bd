import Rbsc.BvGraph.Stream

/-!
# BVGraph: offsets and degrees

`OffsetDegIter`, which goes over a stream without building the lists: it counts the nodes that are
left to decode, from the degrees of the nodes in the window alone.

* `next_degree_reads`: one node;
* `degrees_yields`: the iterator gives the place where each node begins and its outdegree.
-/

namespace Rbsc.BvGraph

open Arrays Decoding

section

variable {σ : Type} (decoder : Component → StateT σ Option ℕ)

/-- The loop over the blocks after the first: the nodes left to decode, and the end of the last
block. -/
def skip_blocks : ℕ → ℕ → ℕ → ℕ → StateT σ Option (ℕ × ℕ)
  | 0, _, idx, left => pure (left, idx)
  | todo + 1, block_id, idx, left => do
    let block ← decoder .block
    let last := idx + block + 1
    let left ←
      if block_id % 2 = 0 then StateT.lift (checked_sub left (block + 1)) else pure left
    skip_blocks todo (block_id + 1) last left

/-- The nodes left to decode after the blocks. -/
def skip_copied (ref_degree left : ℕ) : StateT σ Option ℕ := do
  let number_of_blocks ← decoder .block_count
  if number_of_blocks = 0 then StateT.lift (checked_sub left ref_degree)
  else
    let idx ← decoder .block
    let left ← StateT.lift (checked_sub left idx)
    let p ← skip_blocks decoder (number_of_blocks - 1) 1 idx left
    if number_of_blocks % 2 = 0 then
      let rest ← StateT.lift (checked_sub ref_degree p.2)
      StateT.lift (checked_sub p.1 rest)
    else pure p.1

/-- The nodes left to decode after the reference. -/
def skip_reference (compression_window : ℕ) (backrefs : Arr ℕ) (node_id degree : ℕ) :
    StateT σ Option ℕ := do
  let ref_delta ← read_ref_delta decoder compression_window
  if ref_delta ≠ 0 then
    let reference_node_id ← StateT.lift (checked_sub node_id ref_delta)
    skip_copied decoder (backrefs (reference_node_id % compression_window)) degree
  else pure degree

/-- The loop over intervals. -/
def skip_next_intervals (min_interval_length : ℕ) : ℕ → ℕ → StateT σ Option ℕ
  | 0, left => pure left
  | todo + 1, left => do
    let _ ← decoder .interval_start
    let len ← decoder .interval_len
    let left ← StateT.lift (checked_sub left (len + min_interval_length))
    skip_next_intervals min_interval_length todo left

/-- The nodes left to decode after the intervals. -/
def skip_intervals (min_interval_length left : ℕ) : StateT σ Option ℕ :=
  if left ≠ 0 ∧ min_interval_length ≠ 0 then do
    let number_of_intervals ← decoder .interval_count
    skip_next_intervals decoder min_interval_length number_of_intervals left
  else pure left

/-- The loop over the residuals after the first. -/
def skip_next_residuals : ℕ → StateT σ Option Unit
  | 0 => pure ()
  | todo + 1 => do
    let _ ← decoder .residual
    skip_next_residuals todo

/-- The residuals. -/
def skip_residuals (left : ℕ) : StateT σ Option Unit :=
  if left ≠ 0 then do
    let _ ← decoder .first_residual
    skip_next_residuals decoder (left - 1)
  else pure ()

/-- `next_degree`, but for what it stores. -/
def next_degree (compression_window min_interval_length : ℕ) (backrefs : Arr ℕ) (node_id : ℕ) :
    StateT σ Option ℕ := do
  let degree ← decoder .outdegree
  if degree = 0 then pure degree
  else
    let left ← skip_reference decoder compression_window backrefs node_id degree
    let left ← skip_intervals decoder min_interval_length left
    let _ ← skip_residuals decoder left
    pure degree

/-- `OffsetDegIter`; the places of `backrefs` are those below the window. -/
structure OffsetDegIter (σ : Type) where
  number_of_nodes : ℕ
  compression_window : ℕ
  min_interval_length : ℕ
  node_id : ℕ
  decoder : σ
  backrefs : Arr ℕ

/-- `OffsetDegIter::new`. -/
def OffsetDegIter.new (decoder : σ)
    (number_of_nodes compression_window min_interval_length : ℕ) : OffsetDegIter σ where
  number_of_nodes := number_of_nodes
  compression_window := compression_window
  min_interval_length := min_interval_length
  node_id := 0
  decoder := decoder
  backrefs := .const 0

/-- `OffsetDegIter::next`; `bit_pos` is the position of the decoder in the bitstream. -/
def OffsetDegIter.next (bit_pos : σ → ℕ) (it : OffsetDegIter σ) :
    Option (Option (ℕ × ℕ) × OffsetDegIter σ) :=
  if it.number_of_nodes ≤ it.node_id then some (none, it)
  else do
    let (degree, d) ← next_degree decoder it.compression_window it.min_interval_length it.backrefs
      it.node_id it.decoder
    some (some (bit_pos it.decoder, degree),
      { it with
        decoder := d
        backrefs :=
          if it.compression_window ≠ 0 then
            it.backrefs.set (it.node_id % it.compression_window) degree
          else it.backrefs
        node_id := it.node_id + 1 })

/-- `build_offsets`: the numbers that it writes, from the last offset on. -/
def build_offsets (bit_pos : σ → ℕ) : ℕ → ℕ → OffsetDegIter σ → Option (List ℕ)
  | 0, _, _ => none
  | fuel + 1, offset, it => do
    let (item, it) ← it.next decoder bit_pos
    match item with
    | none => some [bit_pos it.decoder - offset]
    | some (new_offset, _) =>
      (build_offsets bit_pos fuel new_offset it).map ((new_offset - offset) :: ·)

end

/-! ### One node -/

section

variable {σ : Type} (decoder : Component → StateT σ Option ℕ)

theorem checked_sub_add (a b : ℕ) : checked_sub (a + b) a = some b := by
  rw [checked_sub, if_pos (Nat.le_add_right a b), Nat.add_sub_cancel_left]

/-- The blocks after the first; `more` is what is left after all blocks. -/
theorem skip_blocks_reads (l blocks : List ℕ) (block_id idx more : ℕ)
    (hpos : ∀ b ∈ blocks, 0 < b) (hsum : idx + blocks.sum ≤ l.length) :
    Reads decoder (skip_blocks decoder blocks.length block_id idx
        ((take_blocks (block_id % 2 = 0) blocks (l.drop idx)).length + more))
      (blocks.map fun b => (.block, b - 1))
      ((if (block_id + blocks.length) % 2 = 0 then l.length - (idx + blocks.sum) else 0) + more,
        idx + blocks.sum) := by
  induction blocks generalizing block_id idx with
  | nil =>
    by_cases hpar : block_id % 2 = 0 <;>
      simpa [take_blocks, skip_blocks, hpar] using Reads.pure _
  | cons b blocks ih =>
    obtain ⟨hb, hpos⟩ := List.forall_mem_cons.1 hpos
    rw [List.sum_cons, ← Nat.add_assoc] at hsum
    have h := ih (block_id + 1) (idx + b) hpos hsum
    rw [List.sum_cons, ← Nat.add_assoc idx, List.length_cons,
      show block_id + (blocks.length + 1) = block_id + 1 + blocks.length by omega]
    refine Reads.ask ?_
    rw [show idx + (b - 1) + 1 = idx + b by omega, Nat.sub_add_cancel hb]
    by_cases hpar : block_id % 2 = 0
    · have hpar' : ¬(block_id + 1) % 2 = 0 := by omega
      have hlen : ((l.drop idx).take b).length = b := by
        rw [List.length_take, List.length_drop]
        omega
      simp only [take_blocks, hpar, hpar', decide_true, decide_false, Bool.not_true, if_true,
        List.length_append, hlen, List.drop_drop, Nat.add_assoc b] at h ⊢
      exact Reads.bind_lift (checked_sub_add _ _) h
    · have hpar' : (block_id + 1) % 2 = 0 := by omega
      simp only [take_blocks, hpar, hpar', decide_true, decide_false, Bool.not_false, if_false,
        Bool.false_eq_true, List.nil_append, List.drop_drop] at h ⊢
      exact h

theorem skip_copied_reads (l blocks : List ℕ) (more : ℕ) (hpos : ∀ b ∈ blocks.tail, 0 < b)
    (hsum : blocks.sum ≤ l.length) :
    Reads decoder (skip_copied decoder l.length ((take_blocks true blocks l).length + more))
      ((.block_count, (blocks.modifyHead (· + 1)).length) ::
        (blocks.modifyHead (· + 1)).map fun b => (.block, b - 1)) more := by
  refine Reads.ask ?_
  cases blocks with
  | nil =>
    have h : checked_sub (l.length + more) l.length = some more := checked_sub_add _ _
    exact Reads.lift h
  | cons b blocks =>
    rw [List.sum_cons] at hsum
    have hlen : (l.take b).length = b := by
      rw [List.length_take]
      omega
    have h := skip_blocks_reads decoder l blocks 1 b more hpos hsum
    simp only [List.modifyHead_cons, List.length_cons, List.map_cons, Nat.add_sub_cancel,
      if_neg (Nat.succ_ne_zero blocks.length)]
    refine Reads.ask ?_
    simp only [take_blocks, if_true, List.length_append, hlen, Nat.add_assoc b, Bool.not_true]
    refine Reads.bind_lift (checked_sub_add _ _) ((h.bind ?_).congr (List.append_nil _))
    rw [Nat.add_comm 1]
    by_cases hpar : (blocks.length + 1) % 2 = 0
    · simp only [if_pos hpar]
      refine Reads.bind_lift (a := l.length - (b + blocks.sum)) (if_pos hsum) ?_
      exact Reads.lift (checked_sub_add _ _)
    · simp only [if_neg hpar, Nat.zero_add]
      exact Reads.pure _

/-- The vector of degrees, as long as the window, holds those of the nodes in the window. -/
def NearDegrees (w : ℕ) (backrefs : Arr ℕ) (succ : ℕ → List ℕ) (lo node : ℕ) : Prop :=
  ∀ i, lo ≤ i → i < node → node ≤ i + w → backrefs (i % w) = (succ i).length

theorem skip_reference_reads {w node m delta more : ℕ} {backrefs : Arr ℕ} {succ : ℕ → List ℕ}
    (hnear : NearDegrees w backrefs succ 0 node) (hw : delta ≤ w) (hd : delta ≤ node)
    {curr : List ℕ} (hcurr : curr ≠ []) {c : Compressor} {iv : List (ℕ × ℕ)}
    (hc : Compressed curr (ref_list succ node delta) m c iv) :
    Reads decoder (skip_reference decoder w backrefs node
        ((copied_nodes curr (ref_list succ node delta)).length + more))
      (c.write_reference (reference_offset w delta)) more := by
  have hdeg : c.outdegree ≠ 0 := by
    rw [hc.outdegree]
    exact fun h => hcurr (List.length_eq_zero_iff.1 h)
  unfold Compressor.write_reference skip_reference read_ref_delta reference_offset
  rw [if_neg hdeg]
  by_cases hw0 : w = 0
  · obtain rfl : delta = 0 := by omega
    rw [if_pos hw0, if_neg (not_not.2 hw0)]
    simp only [ref_list, copied_nodes, if_true, List.length_nil, Nat.zero_add]
    exact Reads.bind_pure (Reads.pure _)
  rw [if_neg hw0, if_pos hw0]
  refine Reads.ask ?_
  by_cases hd0 : delta = 0
  · subst hd0
    simp only [ref_list, copied_nodes, if_true, List.length_nil, Nat.zero_add]
    exact Reads.pure _
  · have href : ref_list succ node delta = some (succ (node - delta)) := if_neg hd0
    rw [href] at hc ⊢
    have hsum := diff_comp_loop_sum curr (succ (node - delta)) 0 true
    rw [Nat.zero_add] at hsum
    rw [if_pos hd0, if_neg hd0]
    refine Reads.bind_lift (if_pos hd) ?_
    rw [hc.blocks _ rfl, hnear (node - delta) (Nat.zero_le _) (by omega) (by omega)]
    exact skip_copied_reads decoder _ _ _ (diff_comp_loop_pos curr _ 0 true).1 hsum

theorem skip_next_intervals_reads {m : ℕ} (prev lo more : ℕ) (intervals : List (ℕ × ℕ))
    (hok : IntervalsOk m lo intervals) :
    Reads decoder (skip_next_intervals decoder m intervals.length
      ((interval_nodes intervals).length + more)) (write_intervals m prev intervals) more := by
  induction intervals generalizing prev lo with
  | nil => simpa [skip_next_intervals, interval_nodes, write_intervals] using Reads.pure more
  | cons p intervals ih =>
    obtain ⟨left, len⟩ := p
    obtain ⟨-, hm, -, hrest⟩ := hok
    have hlen : (interval_nodes ((left, len) :: intervals)).length + more =
        len + ((interval_nodes intervals).length + more) := by
      simp [interval_nodes, Nat.add_assoc]
    rw [hlen]
    refine Reads.ask (Reads.ask ?_)
    rw [Nat.sub_add_cancel hm]
    exact Reads.bind_lift (checked_sub_add _ _) (ih _ _ hrest)

theorem skip_next_residuals_reads (prev : ℕ) (residuals : List ℕ) :
    Reads decoder (skip_next_residuals decoder residuals.length) (write_residuals prev residuals)
      () := by
  induction residuals generalizing prev with
  | nil => exact Reads.pure _
  | cons x residuals ih => exact Reads.ask (ih x)

theorem skip_residuals_reads (dsi : DsiBitstream) (node : ℕ) (residuals : List ℕ) :
    Reads decoder (skip_residuals decoder residuals.length)
      (write_first_residual dsi node residuals) () := by
  cases residuals with
  | nil => exact Reads.pure _
  | cons x xs =>
    rw [skip_residuals, if_pos (by simp)]
    exact Reads.ask (skip_next_residuals_reads decoder x xs)

/-- The intervals take three kinds of calls, and the first start is the only signed one. -/
theorem skip_intervals_reads (dsi : DsiBitstream) {m node more : ℕ} (hm : m ≠ 0)
    {intervals : List (ℕ × ℕ)} (hok : IntervalsOk m 0 intervals)
    (hleft : (interval_nodes intervals).length + more ≠ 0) :
    Reads decoder (skip_intervals decoder m ((interval_nodes intervals).length + more))
      (write_first_interval dsi node m intervals) more := by
  rw [skip_intervals, if_pos ⟨hleft, hm⟩]
  refine Reads.ask ?_
  cases intervals with
  | nil => simpa [skip_next_intervals, interval_nodes] using Reads.pure more
  | cons p intervals =>
    obtain ⟨left, len⟩ := p
    obtain ⟨-, hlen, -, hrest⟩ := hok
    have hsum : (interval_nodes ((left, len) :: intervals)).length + more =
        len + ((interval_nodes intervals).length + more) := by
      simp [interval_nodes, Nat.add_assoc]
    rw [hsum]
    refine Reads.ask (Reads.ask ?_)
    rw [Nat.sub_add_cancel hlen]
    exact Reads.bind_lift (checked_sub_add _ _) (skip_next_intervals_reads decoder _ _ _ _ hrest)

/-- **The degree of one node.** -/
theorem next_degree_reads (dsi : DsiBitstream) {w node m delta : ℕ} {backrefs : Arr ℕ}
    {succ : ℕ → List ℕ} (hnear : NearDegrees w backrefs succ 0 node) (hw : delta ≤ w)
    (hd : delta ≤ node) (h : Successors (succ node)) :
    Reads decoder (next_degree decoder w m backrefs node) (node_calls dsi w m succ node delta)
      (succ node).length := by
  unfold next_degree node_calls
  generalize succ node = curr at h ⊢
  by_cases hcurr : curr = []
  · subst hcurr
    exact Reads.ask (Reads.pure _)
  · obtain ⟨iv, hc⟩ := compress_spec hcurr h.sorted (ref_list succ node delta) m
    generalize Compressor.compress curr (ref_list succ node delta) m = c at hc ⊢
    have hextra := hc.extra.length_eq
    have hrest := hc.rest.length_eq
    simp only [List.length_append] at hextra hrest
    have hdeg : c.outdegree ≠ 0 := by
      rw [hc.outdegree]
      exact fun h => hcurr (List.length_eq_zero_iff.1 h)
    rw [Compressor.write, List.append_assoc]
    refine Reads.ask ?_
    rw [if_neg hdeg, hc.outdegree, ← hextra]
    refine Reads.bind (skip_reference_reads decoder hnear hw hd hcurr hc) ?_
    have hres := skip_residuals_reads decoder dsi node c.residuals
    rw [← hrest]
    refine Reads.bind (a := c.residuals.length) ?_ (hres.map _)
    by_cases hnone : c.extra_nodes = [] ∨ m = 0
    · rw [if_pos hnone, skip_intervals, if_neg]
      · have hiv : (interval_nodes iv).length = 0 := by
          obtain h0 | h0 := hnone
          · rw [h0, List.length_nil] at hrest
            omega
          · rw [hc.no_intervals h0]
            rfl
        rw [hiv, Nat.zero_add]
        exact Reads.pure _
      · rw [hrest]
        simpa [or_iff_not_imp_left] using hnone
    · rw [if_neg hnone, hc.intervals]
      rw [not_or] at hnone
      refine skip_intervals_reads decoder dsi hnone.2 hc.intervals_ok ?_
      rw [hrest]
      simpa using hnone.1

end

/-! ### A run -/

section

variable {dsi : DsiBitstream} {cf : CompFlags} {w m : ℕ} {succ : ℕ → List ℕ} {delta : ℕ → ℕ}

/-- The place where the bits of a node begin. -/
def offset (dsi : DsiBitstream) (cf : CompFlags) (w m : ℕ) (succ : ℕ → List ℕ) (delta : ℕ → ℕ)
    (i : ℕ) : ℕ := ((List.range i).map (node_bits dsi cf w m succ delta)).sum

theorem offset_succ (i : ℕ) : offset dsi cf w m succ delta (i + 1) =
    offset dsi cf w m succ delta i + node_bits dsi cf w m succ delta i := by
  rw [offset, List.range_succ, List.map_append, List.sum_append]
  simp [offset]

theorem length_encode_stream (node n : ℕ) :
    (cf.encode dsi (stream_calls dsi w m succ delta node n)).length =
      ((List.range' node n).map (node_bits dsi cf w m succ delta)).sum := by
  induction n generalizing node with
  | zero => rfl
  | succ n ih =>
    have h := ih (node + 1)
    simp only [stream_calls] at h
    simp [stream_calls, List.range'_succ, CompFlags.encode_append, h, node_bits]

theorem NearDegrees.push {backrefs : Arr ℕ} {node : ℕ}
    (h : NearDegrees w backrefs succ 0 node) :
    NearDegrees w (if w ≠ 0 then backrefs.set (node % w) (succ node).length else backrefs) succ 0
      (node + 1) := by
  intro i hlo hi hiw
  by_cases hw0 : w = 0
  · omega
  rw [if_pos hw0]
  obtain rfl | hlt := (Nat.lt_succ_iff_lt_or_eq.1 hi).symm
  · exact Arr.set_self ..
  · rw [Arr.set_of_ne]
    · exact h i hlo hlt (by omega)
    · intro hmod
      have := Nat.sub_mod_eq_zero_of_mod_eq hmod.symm
      rw [Nat.mod_eq_of_lt (by omega)] at this
      omega

/-- What the iterator knows before a node: the degrees in the window, and that `bits` is to come. -/
structure OffsetDegIter.Ok (w m : ℕ) (succ : ℕ → List ℕ) (bits : List Bool)
    (it : OffsetDegIter (List Bool)) : Prop where
  compression_window : it.compression_window = w
  min_interval_length : it.min_interval_length = m
  near : NearDegrees w it.backrefs succ 0 it.node_id
  decoder : it.decoder = bits

/-- One node of the iterator. -/
theorem OffsetDegIter.next_eq {bits : List Bool} {it : OffsetDegIter (List Bool)} {d : ℕ}
    (h : it.Ok w m succ (cf.encode dsi (node_calls dsi w m succ it.node_id d) ++ bits))
    (hlt : it.node_id < it.number_of_nodes) (hn : it.node_id < 2 ^ 63)
    (hs : ∀ i ≤ it.node_id, Successors (succ i)) (hw : d ≤ w) (hd : d ≤ it.node_id)
    (bit_pos : List Bool → ℕ) :
    ∃ it' : OffsetDegIter (List Bool), it.next (cf.decoder dsi) bit_pos =
        some (some (bit_pos it.decoder, (succ it.node_id).length), it') ∧
      it'.Ok w m succ bits ∧ it'.node_id = it.node_id + 1 ∧
      it'.number_of_nodes = it.number_of_nodes := by
  have hcalls : ∀ c ∈ node_calls dsi w m succ it.node_id d, c.2 < CODE_MAX :=
    node_calls_lt dsi hn hd (hs _ (Nat.sub_le _ _)).length_le (hs _ le_rfl)
  have hread := next_degree_reads (cf.decoder dsi) dsi h.near hw hd (hs _ le_rfl) _ _
    (supplies_encode dsi cf hcalls bits)
  rw [← h.decoder] at hread
  unfold OffsetDegIter.next
  rw [if_neg (not_le.2 hlt)]
  simp only [h.compression_window, h.min_interval_length, hread, Option.bind_eq_bind,
    Option.bind_some]
  exact ⟨_, rfl, ⟨rfl, rfl, h.near.push, rfl⟩, rfl, rfl⟩

/-- **Offsets and degrees.**  `total` is the length of the bitstream. -/
theorem degrees_gives (total n : ℕ) (rest : List Bool) (it : OffsetDegIter (List Bool))
    (h : it.Ok w m succ (cf.encode dsi (stream_calls dsi w m succ delta it.node_id n) ++ rest))
    (htotal : offset dsi cf w m succ delta it.node_id + it.decoder.length = total)
    (hn : it.node_id + n ≤ it.number_of_nodes) (hmax : it.number_of_nodes ≤ 2 ^ 63)
    (hw : ∀ i, it.node_id ≤ i → i < it.node_id + n → delta i ≤ w)
    (hd : ∀ i, it.node_id ≤ i → i < it.node_id + n → delta i ≤ i)
    (hs : ∀ i < it.number_of_nodes, Successors (succ i)) :
    ∃ it' : OffsetDegIter (List Bool),
      Gives (OffsetDegIter.next (cf.decoder dsi) fun s => total - s.length)
        ((List.range' it.node_id n).map fun i =>
          (offset dsi cf w m succ delta i, (succ i).length)) it it' ∧
      it'.decoder = rest ∧ it'.node_id = it.node_id + n ∧
      it'.number_of_nodes = it.number_of_nodes := by
  induction n generalizing it with
  | zero => exact ⟨it, rfl, by simpa [stream_calls, CompFlags.encode] using h.decoder, rfl, rfl⟩
  | succ n ih =>
    have hsplit : cf.encode dsi (stream_calls dsi w m succ delta it.node_id (n + 1)) ++ rest =
        cf.encode dsi (node_calls dsi w m succ it.node_id (delta it.node_id)) ++
          (cf.encode dsi (stream_calls dsi w m succ delta (it.node_id + 1) n) ++ rest) := by
      simp [stream_calls, List.range'_succ, CompFlags.encode_append]
    rw [hsplit] at h
    obtain ⟨it₁, hnext, hok, hnode, hnum⟩ := OffsetDegIter.next_eq h (by omega) (by omega)
      (fun i hi => hs i (by omega)) (hw _ le_rfl (by omega)) (hd _ le_rfl (by omega))
      fun s => total - s.length
    have hlen : it.decoder.length =
        node_bits dsi cf w m succ delta it.node_id + it₁.decoder.length := by
      rw [h.decoder, hok.decoder, List.length_append]
      rfl
    rw [← hnode] at hok
    obtain ⟨it', hg, hdec, hnode', hnum'⟩ := ih it₁ hok
      (by rw [hnode, offset_succ]; omega) (by omega) (by omega)
      (fun i h1 h2 => hw i (by omega) (by omega)) (fun i h1 h2 => hd i (by omega) (by omega))
      (fun i hi => hs i (by omega))
    have hpos : total - it.decoder.length = offset dsi cf w m succ delta it.node_id := by omega
    rw [hpos] at hnext
    rw [List.range'_succ, List.map_cons, ← hnode]
    exact ⟨it', ⟨it₁, hnext, hg⟩, hdec, by omega, by omega⟩

/-- The offsets of the next nodes, and of the end, as differences. -/
theorem build_offsets_gives {decoder : Component → StateT (List Bool) Option ℕ}
    {bit_pos : List Bool → ℕ} (node n prev fuel : ℕ) (hprev : prev ≤ offset dsi cf w m succ delta node)
    {it it' : OffsetDegIter (List Bool)} (hg : Gives (OffsetDegIter.next decoder bit_pos)
      ((List.range' node n).map fun i => (offset dsi cf w m succ delta i, (succ i).length)) it it')
    (hend : it'.number_of_nodes ≤ it'.node_id)
    (hpos : bit_pos it'.decoder = offset dsi cf w m succ delta (node + n)) (hfuel : n < fuel) :
    build_offsets decoder bit_pos fuel prev it =
      some ((offset dsi cf w m succ delta node - prev) ::
        (List.range' node n).map (node_bits dsi cf w m succ delta)) := by
  induction n generalizing node prev fuel it with
  | zero =>
    obtain ⟨fuel, rfl⟩ : ∃ k, fuel = k + 1 := ⟨fuel - 1, by omega⟩
    obtain rfl : it = it' := hg
    have hnext : it.next decoder bit_pos = some (none, it) := if_pos hend
    simp [build_offsets, hnext, hpos]
  | succ n ih =>
    obtain ⟨fuel, rfl⟩ : ∃ k, fuel = k + 1 := ⟨fuel - 1, by omega⟩
    obtain ⟨it₁, hnext, hg⟩ := hg
    have hle : offset dsi cf w m succ delta node ≤ offset dsi cf w m succ delta (node + 1) := by
      rw [offset_succ]
      exact Nat.le_add_right _ _
    have h := ih (node + 1) _ fuel hle hg (by rw [hpos]; congr 1; omega) (by omega)
    rw [offset_succ, Nat.add_sub_cancel_left] at h
    simp [build_offsets, hnext, h, List.range'_succ]

end

end Rbsc.BvGraph
