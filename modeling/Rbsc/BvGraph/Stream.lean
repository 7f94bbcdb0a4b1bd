import Rbsc.BvGraph.Compressor
import Rbsc.Export.Model

/-!
# BVGraph: the stream

A run of `BvComp::push` and the run of `Iter` over the bits that it has written.

* `push_spec`: `push` writes its list with a reference to a node in the window, and of all
  references that `max_ref_count` permits it takes the cheapest, the nearest if there are several;
* `Stream`: the calls for some nodes in a row; `extend_stream`: what the pushes write is one;
* `Stream.yields`: the iterator gives the lists of a stream.
-/

namespace Rbsc.BvGraph

open Arrays Decoding ForLoop

/-! ### The buffer -/

namespace CircularBuffer

variable {α : Type} {b : CircularBuffer α} {i j : ℕ} {x : α}

@[simp] theorem len_replace : (b.replace i x).len = b.len := rfl

@[simp] theorem index_replace_self : (b.replace i x).index i = x := Arr.set_self ..

/-- Places that are less than a round apart. -/
theorem index_replace_of_lt (hij : j < i) (hlen : i < j + b.len) :
    (b.replace i x).index j = b.index j := by
  refine Arr.set_of_ne _ _ fun h => ?_
  have := Nat.sub_mod_eq_zero_of_mod_eq h.symm
  rw [Nat.mod_eq_of_lt (by omega)] at this
  omega

end CircularBuffer

section

variable {α : Type} {w lo node : ℕ} {b : CircularBuffer α} {f : ℕ → α}

theorem Near.replace (h : Near w b f lo node) (hlen : b.len = w + 1) (x : α) :
    Near w (b.replace node x) f lo node := by
  intro i hlo hi hw
  rw [CircularBuffer.index_replace_of_lt hi (by omega)]
  exact h i hlo hi hw

theorem Near.congr {f' : ℕ → α} (h : Near w b f lo node) (hf : ∀ i < node, f i = f' i) :
    Near w b f' lo node := fun i hlo hi hw => (h i hlo hi hw).trans (hf i hi)

theorem Near.push (h : Near w b f lo node) (hlen : b.len = w + 1) :
    Near w (b.replace node (f node)) f lo (node + 1) := by
  intro i hlo hi hw
  obtain rfl | hlt := (Nat.lt_succ_iff_lt_or_eq.1 hi).symm
  · exact CircularBuffer.index_replace_self
  · rw [CircularBuffer.index_replace_of_lt hlt (by omega)]
    exact h i hlo hlt (by omega)

end

/-! ### The choice of the reference -/

/-- The number of references that are followed to decode a node, where that of node `i` is at a
distance of `delta i`. -/
def depth (delta : ℕ → ℕ) (node : ℕ) : ℕ :=
  if 0 < delta node ∧ delta node ≤ node then depth delta (node - delta node) + 1 else 0

theorem depth_congr {delta delta' : ℕ → ℕ} {node : ℕ} (h : ∀ i ≤ node, delta i = delta' i) :
    depth delta node = depth delta' node := by
  induction node using Nat.strong_induction_on with
  | _ node ih =>
    rw [depth.eq_def delta, depth.eq_def delta', ← h node le_rfl]
    by_cases hd : 0 < delta node ∧ delta node ≤ node
    · rw [if_pos hd, if_pos hd, ih (node - delta node) (by omega) fun i hi => h i (by omega)]
    · rw [if_neg hd, if_neg hd]

section

variable (dsi : DsiBitstream) (cf : CompFlags) (w m max_ref_count : ℕ) (succ : ℕ → List ℕ)
  (count : ℕ → ℕ) (node : ℕ)

/-- The estimate for a node with a reference at a distance of `delta`. -/
def cost (delta : ℕ) : ℕ := cf.estimate dsi (node_calls dsi w m succ node delta)

/-- The references that `push` tries: none, and the nodes with successors and a count below the
maximum. -/
def Permitted (delta : ℕ) : Prop :=
  delta = 0 ∨ (count (node - delta) < max_ref_count ∧ succ (node - delta) ≠ [])

/-- The locals of `push` before it tries `deltas`: the cheapest of the references before, the
nearest if there are several. -/
structure Best.Ok (deltas : ℕ) (b : Best) : Prop where
  lt : b.ref_delta < deltas
  permitted : Permitted max_ref_count succ count node b.ref_delta
  compressor : b.compressors b.ref_delta =
    Compressor.compress (succ node) (ref_list succ node b.ref_delta) m
  min_bits : b.min_bits = cost dsi cf w m succ node b.ref_delta
  ref_count : b.ref_count = if b.ref_delta = 0 then 0 else count (node - b.ref_delta) + 1
  cheapest : ∀ d < deltas, Permitted max_ref_count succ count node d →
    b.min_bits ≤ cost dsi cf w m succ node d
  nearest : ∀ d < b.ref_delta, Permitted max_ref_count succ count node d →
    b.min_bits < cost dsi cf w m succ node d

end

section

variable {dsi : DsiBitstream} {cf : CompFlags} {w m max_ref_count start node : ℕ}
  {succ : ℕ → List ℕ} {count : ℕ → ℕ} {c : BvComp}

/-- What `push` has found before its loop. -/
structure Ready (w m max_ref_count start node : ℕ) (succ : ℕ → List ℕ) (count : ℕ → ℕ)
    (c : BvComp) : Prop where
  compression_window : c.compression_window = w
  max_ref_count : c.max_ref_count = max_ref_count
  min_interval_length : c.min_interval_length = m
  start_node : c.start_node = start
  curr_node : c.curr_node = node
  len : c.backrefs.len = w + 1
  ref_len : c.ref_counts.len = w + 1
  backrefs : Near w c.backrefs succ start node
  ref_counts : w ≠ 0 → Near w c.ref_counts count start node

/-- One round of the loop. -/
theorem try_delta_ok (hc : Ready w m max_ref_count start node succ count c) {delta : ℕ} {b : Best}
    (hpos : 0 < delta) (hw : delta ≤ w) (hd : start + delta ≤ node)
    (hb : b.Ok dsi cf w m max_ref_count succ count node delta) :
    (c.try_delta dsi cf (succ node) b delta).Ok dsi cf w m max_ref_count succ count node
      (delta + 1) := by
  have hcount := hc.ref_counts (by omega) (node - delta) (by omega) (by omega) (by omega)
  have hlist := hc.backrefs (node - delta) (by omega) (by omega) (by omega)
  -- what is known of the earlier ones still holds when this one is not taken
  have hkeep : ∀ b' : Best, b'.compressors b.ref_delta = b.compressors b.ref_delta →
      b'.min_bits = b.min_bits → b'.ref_delta = b.ref_delta → b'.ref_count = b.ref_count →
      (Permitted max_ref_count succ count node delta →
        b.min_bits ≤ cost dsi cf w m succ node delta) →
      b'.Ok dsi cf w m max_ref_count succ count node (delta + 1) := by
    intro b' h1 h2 h3 h4 hle
    refine ⟨by have := hb.lt; omega, h3 ▸ hb.permitted, ?_, ?_, ?_, ?_, ?_⟩
    · rw [h3, h1, hb.compressor]
    · rw [h2, h3, hb.min_bits]
    · rw [h4, h3, hb.ref_count]
    · intro d hdlt hperm
      rw [h2]
      obtain rfl | hlt := (Nat.lt_succ_iff_lt_or_eq.1 hdlt).symm
      · exact hle hperm
      · exact hb.cheapest d hlt hperm
    · intro d hdlt hperm
      rw [h3] at hdlt
      rw [h2]
      exact hb.nearest d hdlt hperm
  unfold BvComp.try_delta
  simp only [hc.curr_node, hc.max_ref_count, hc.min_interval_length, hcount, hlist]
  by_cases hmax : max_ref_count ≤ count (node - delta)
  · rw [if_pos hmax]
    refine hkeep b rfl rfl rfl rfl fun hperm => ?_
    obtain h0 | ⟨hlt, -⟩ := hperm <;> omega
  rw [if_neg hmax]
  by_cases hnil : succ (node - delta) = []
  · rw [if_pos hnil]
    refine hkeep b rfl rfl rfl rfl fun hperm => ?_
    obtain h0 | ⟨-, hne⟩ := hperm
    · omega
    · exact absurd hnil hne
  rw [if_neg hnil]
  have hcand : cf.estimate dsi ((Compressor.compress (succ node) (some (succ (node - delta))) m).write
      dsi node (some delta) m) = cost dsi cf w m succ node delta := by
    rw [cost, node_calls, ref_list, reference_offset, if_neg (by omega : delta ≠ 0),
      if_neg (by omega : w ≠ 0)]
  rw [hcand]
  by_cases hlt : cost dsi cf w m succ node delta < b.min_bits
  · rw [if_pos hlt]
    refine ⟨Nat.lt_succ_self _, Or.inr ⟨not_le.1 hmax, hnil⟩, ?_, rfl, ?_, ?_, ?_⟩
    · rw [ref_list, if_neg (by omega : delta ≠ 0)]
      exact Arr.set_self ..
    · rw [if_neg (by omega : delta ≠ 0)]
    · intro d hdlt hperm
      obtain rfl | hdlt := (Nat.lt_succ_iff_lt_or_eq.1 hdlt).symm
      · exact le_rfl
      · exact hlt.le.trans (hb.cheapest d hdlt hperm)
    · intro d hdlt hperm
      exact hlt.trans_le (hb.cheapest d hdlt hperm)
  · rw [if_neg hlt]
    exact hkeep _ (Arr.set_of_ne _ _ hb.lt.ne) rfl rfl rfl fun _ => not_lt.1 hlt

/-- The locals after the loop. -/
theorem best_ok (dsi : DsiBitstream) (cf : CompFlags)
    (hc : Ready w m max_ref_count start node succ count c) (hw : w ≠ 0) (hle : start ≤ node) :
    (c.best dsi cf (succ node)).Ok dsi cf w m max_ref_count succ count node
      (1 + min w (node - start)) := by
  unfold BvComp.best
  simp only [hc.curr_node, hc.start_node, hc.min_interval_length, hc.compression_window]
  refine foldl_Ico (by omega) ?_ fun delta b h1 h2 hb =>
    try_delta_ok hc h1 (by omega) (by omega) hb
  have hcost : cf.estimate dsi ((Compressor.compress (succ node) none m).write dsi node (some 0) m) =
      cost dsi cf w m succ node 0 := by
    rw [cost, node_calls, ref_list, reference_offset, if_pos rfl, if_neg hw]
  rw [hcost]
  refine ⟨Nat.one_pos, Or.inl rfl, Arr.set_self .., rfl, rfl, ?_, ?_⟩
  · intro d hd _
    obtain rfl : d = 0 := by omega
    exact le_rfl
  · intro d hd
    exact absurd hd (Nat.not_lt_zero d)

end

/-! ### A run of `push` -/

section

variable (dsi : DsiBitstream) (cf : CompFlags) (w m max_ref_count start : ℕ) (succ : ℕ → List ℕ)

/-- The calls for `n` nodes from `node` on. -/
def stream_calls (delta : ℕ → ℕ) (node n : ℕ) : List Call :=
  (List.range' node n).flatMap fun i => node_calls dsi w m succ i (delta i)

/-- The reference of a node: within the window and the nodes pushed so far, one that `push` tries,
and of those the cheapest, the nearest if there are several. -/
structure Chosen (count : ℕ → ℕ) (node d : ℕ) : Prop where
  window : d ≤ w
  first : start + d ≤ node
  permitted : Permitted max_ref_count succ count node d
  cheapest : ∀ d' ≤ w, start + d' ≤ node → Permitted max_ref_count succ count node d' →
    cost dsi cf w m succ node d ≤ cost dsi cf w m succ node d'
  nearest : ∀ d' < d, Permitted max_ref_count succ count node d' →
    cost dsi cf w m succ node d < cost dsi cf w m succ node d'

/-- The state after the nodes before `node` have been pushed, with references at the distances
`delta`. -/
structure Pushed (delta : ℕ → ℕ) (node : ℕ) (c : BvComp) : Prop where
  ready : Ready w m max_ref_count start node succ (depth delta) c
  le : start ≤ node
  encoder : c.encoder = cf.encode dsi (stream_calls dsi w m succ delta start (node - start))
  chosen : ∀ i, start ≤ i → i < node →
    Chosen dsi cf w m max_ref_count start succ (depth delta) i (delta i)
  arcs : c.arcs = ((List.range' start (node - start)).map fun i => (succ i).length).sum

end

section

variable {dsi : DsiBitstream} {cf : CompFlags} {w m max_ref_count start node : ℕ}
  {succ : ℕ → List ℕ} {c : BvComp}

theorem permitted_congr {count count' : ℕ → ℕ} (h : ∀ i < node, count i = count' i) {d : ℕ}
    (hd : d ≤ node) :
    Permitted max_ref_count succ count node d ↔ Permitted max_ref_count succ count' node d := by
  unfold Permitted
  by_cases h0 : d = 0
  · simp [h0]
  · rw [h (node - d) (by omega)]

theorem Chosen.congr {count count' : ℕ → ℕ} (h : ∀ i < node, count i = count' i) {d : ℕ}
    (hc : Chosen dsi cf w m max_ref_count start succ count node d) :
    Chosen dsi cf w m max_ref_count start succ count' node d where
  window := hc.window
  first := hc.first
  permitted := (permitted_congr h (by have := hc.first; omega)).1 hc.permitted
  cheapest d' hw hd hp := hc.cheapest d' hw hd ((permitted_congr h (by omega)).2 hp)
  nearest d' hlt hp :=
    hc.nearest d' hlt ((permitted_congr h (by have := hc.first; omega)).2 hp)

theorem stream_calls_congr {delta delta' : ℕ → ℕ} {n : ℕ}
    (h : ∀ i, node ≤ i → i < node + n → delta i = delta' i) :
    stream_calls dsi w m succ delta node n = stream_calls dsi w m succ delta' node n := by
  unfold stream_calls
  rw [List.flatMap_def, List.flatMap_def]
  congr 1
  refine List.map_congr_left fun i hi => ?_
  have := List.mem_range'_1.1 hi
  rw [h i this.1 this.2]

theorem stream_calls_append (dsi : DsiBitstream) (w m : ℕ) (succ : ℕ → List ℕ) (delta : ℕ → ℕ)
    (node n k : ℕ) :
    stream_calls dsi w m succ delta node (n + k) =
      stream_calls dsi w m succ delta node n ++ stream_calls dsi w m succ delta (node + n) k := by
  rw [stream_calls, ← List.range'_append_1, List.flatMap_append]
  rfl

theorem CompFlags.encode_append (calls calls' : List Call) :
    cf.encode dsi (calls ++ calls') = cf.encode dsi calls ++ cf.encode dsi calls' :=
  List.flatMap_append

/-- Before the first node. -/
theorem pushed_new (dsi : DsiBitstream) (cf : CompFlags) (w m max_ref_count start : ℕ)
    (succ : ℕ → List ℕ) (delta : ℕ → ℕ) :
    Pushed dsi cf w m max_ref_count start succ delta start
      (BvComp.new w max_ref_count m start) where
  ready := by
    refine ⟨rfl, rfl, rfl, rfl, rfl, rfl, rfl, fun i h1 h2 => ?_, fun _ i h1 h2 => ?_⟩ <;> omega
  le := le_rfl
  encoder := by simp [BvComp.new, stream_calls, CompFlags.encode]
  chosen i h1 h2 := by omega
  arcs := by simp [BvComp.new]

theorem depth_update_of_lt {delta : ℕ → ℕ} {d i : ℕ} (hi : i < node) :
    depth (Function.update delta node d) i = depth delta i :=
  depth_congr fun j hj => Function.update_of_ne (by omega) _ _

theorem depth_update_self {delta : ℕ → ℕ} {d : ℕ} (hd : d ≤ node) :
    depth (Function.update delta node d) node =
      if d = 0 then 0 else depth delta (node - d) + 1 := by
  rw [depth, Function.update_self]
  by_cases h0 : d = 0
  · rw [if_neg (by omega), if_pos h0]
  · rw [if_pos ⟨by omega, hd⟩, if_neg h0, depth_update_of_lt (by omega)]

/-- The next node, with the reference that was chosen for it. -/
theorem Pushed.step {delta : ℕ → ℕ} {d : ℕ} {c' : BvComp}
    (h : Pushed dsi cf w m max_ref_count start succ delta node c)
    (hd : Chosen dsi cf w m max_ref_count start succ (depth delta) node d)
    (hready : Ready w m max_ref_count start (node + 1) succ (depth (Function.update delta node d)) c')
    (henc : c'.encoder = c.encoder ++ cf.encode dsi (node_calls dsi w m succ node d))
    (harcs : c'.arcs = c.arcs + (succ node).length) :
    Pushed dsi cf w m max_ref_count start succ (Function.update delta node d) (node + 1) c' := by
  have hle := h.le
  have hn : node + 1 - start = (node - start) + 1 := by omega
  have hlast : start + (node - start) = node := by omega
  refine ⟨hready, by omega, ?_, ?_, ?_⟩
  · have hbefore : stream_calls dsi w m succ delta start (node - start) =
        stream_calls dsi w m succ (Function.update delta node d) start (node - start) :=
      stream_calls_congr fun i _ hi => (Function.update_of_ne (by omega) _ _).symm
    rw [henc, h.encoder, hbefore, hn]
    simp only [stream_calls, List.range'_1_concat, List.flatMap_append, List.flatMap_singleton,
      hlast, Function.update_self, CompFlags.encode_append]
  · intro i h1 h2
    have hcount : ∀ j < i, depth delta j = depth (Function.update delta node d) j := fun j hj =>
      (depth_update_of_lt (by omega)).symm
    obtain rfl | hlt := (Nat.lt_succ_iff_lt_or_eq.1 h2).symm
    · rw [Function.update_self]
      exact hd.congr hcount
    · rw [Function.update_of_ne (by omega)]
      exact (h.chosen i h1 hlt).congr hcount
  · rw [harcs, h.arcs, hn, List.range'_1_concat]
    simp [hlast]

/-- **One push.**  The list is written with the reference that was chosen for it. -/
theorem push_spec {delta : ℕ → ℕ}
    (h : Pushed dsi cf w m max_ref_count start succ delta node c) :
    ∃ d, Pushed dsi cf w m max_ref_count start succ (Function.update delta node d) (node + 1)
        (c.push dsi cf (succ node)).1 ∧
      (c.push dsi cf (succ node)).2 =
        (cf.encode dsi (node_calls dsi w m succ node d)).length := by
  have hready := h.ready
  have hle := h.le
  have hcurr := hready.curr_node
  have hindex : (c.backrefs.replace node (succ node)).index node = succ node :=
    CircularBuffer.index_replace_self
  have hpush := hready.backrefs.push hready.len
  unfold BvComp.push
  simp only [hcurr, hindex, hready.compression_window, hready.min_interval_length]
  by_cases hw : w = 0
  · have hcalls : (Compressor.compress (succ node) none m).write dsi node none m =
        node_calls dsi w m succ node 0 := by
      rw [node_calls, ref_list, reference_offset, if_pos rfl, if_pos hw]
    rw [if_pos hw, hcalls]
    refine ⟨0, h.step ?_ ?_ rfl rfl, rfl⟩
    · refine ⟨Nat.zero_le _, by omega, Or.inl rfl, fun d' hd' _ _ => ?_, fun d' hd' => ?_⟩
      · obtain rfl : d' = 0 := by omega
        exact le_rfl
      · omega
    · exact ⟨rfl, hready.max_ref_count, rfl, hready.start_node, rfl, hready.len, hready.ref_len,
        hpush, fun h0 => absurd hw h0⟩
  · rw [if_neg hw]
    -- the loop over the deltas reads the buffer with the new list in it
    have hready' : Ready w m max_ref_count start node succ (depth delta)
        { c with
          backrefs := c.backrefs.replace node (succ node)
          compression_window := w
          min_interval_length := m
          curr_node := node
          arcs := c.arcs + (succ node).length } :=
      ⟨rfl, hready.max_ref_count, rfl, hready.start_node, rfl, hready.len, hready.ref_len,
        hready.backrefs.replace hready.len _, hready.ref_counts⟩
    have hbest := best_ok dsi cf hready' hw hle
    generalize BvComp.best dsi cf _ (succ node) = b at hbest ⊢
    have hlt := hbest.lt
    have hcalls : (b.compressors b.ref_delta).write dsi node (some b.ref_delta) m =
        node_calls dsi w m succ node b.ref_delta := by
      rw [hbest.compressor, node_calls, reference_offset, if_neg hw]
    have hchosen : Chosen dsi cf w m max_ref_count start succ (depth delta) node b.ref_delta :=
      { window := by omega
        first := by omega
        permitted := hbest.permitted
        cheapest := fun d' h1 h2 hp => hbest.min_bits ▸ hbest.cheapest d' (by omega) hp
        nearest := fun d' h1 hp => hbest.min_bits ▸ hbest.nearest d' h1 hp }
    have hcounts : Near w (c.ref_counts.replace node b.ref_count)
        (depth (Function.update delta node b.ref_delta)) start (node + 1) := by
      rw [hbest.ref_count, ← depth_update_self (by omega)]
      exact ((hready.ref_counts hw).congr fun i hi => (depth_update_of_lt hi).symm).push
        hready.ref_len
    rw [hcalls]
    exact ⟨b.ref_delta, h.step hchosen ⟨rfl, hready.max_ref_count, rfl, hready.start_node, rfl,
      hready.len, hready.ref_len, hpush, fun _ => hcounts⟩ rfl rfl, rfl⟩

/-- The number of bits of a node. -/
def node_bits (dsi : DsiBitstream) (cf : CompFlags) (w m : ℕ) (succ : ℕ → List ℕ)
    (delta : ℕ → ℕ) (i : ℕ) : ℕ := (cf.encode dsi (node_calls dsi w m succ i (delta i))).length

/-- **A run of pushes.** -/
theorem extend_spec {delta : ℕ → ℕ} (n : ℕ)
    (h : Pushed dsi cf w m max_ref_count start succ delta node c) :
    ∃ delta', (∀ i < node, delta' i = delta i) ∧
      Pushed dsi cf w m max_ref_count start succ delta' (node + n)
        (c.extend dsi cf ((List.range' node n).map succ)).1 ∧
      (c.extend dsi cf ((List.range' node n).map succ)).2 =
        (List.range' node n).map (node_bits dsi cf w m succ delta') := by
  induction n generalizing node c delta with
  | zero => exact ⟨delta, fun _ _ => rfl, h, rfl⟩
  | succ n ih =>
    obtain ⟨d, hd, hbits⟩ := push_spec h
    obtain ⟨delta', hsame, h', hbits'⟩ := ih hd
    have hnode : delta' node = d := by rw [hsame node (Nat.lt_succ_self _), Function.update_self]
    simp only [List.range'_succ, List.map_cons, show node + (n + 1) = node + 1 + n by omega]
    refine ⟨delta', fun i hi => ?_, h', ?_⟩
    · rw [hsame i (by omega), Function.update_of_ne (by omega)]
    · rw [BvComp.extend, hbits, hbits', node_bits, hnode]

/-- No node needs more references than the maximum. -/
theorem Chosen.depth_le {delta : ℕ → ℕ}
    (h : Chosen dsi cf w m max_ref_count start succ (depth delta) node (delta node)) :
    depth delta node ≤ max_ref_count := by
  rw [depth]
  split
  · next hd =>
    obtain h0 | ⟨hlt, -⟩ := h.permitted
    · omega
    · exact hlt
  · exact Nat.zero_le _

/-- References of the nodes from `lo` on: each is to a node from `lo` on, in the window and with
successors, and no more than `max_ref_count` are followed to decode a node. -/
structure Layout (w max_ref_count : ℕ) (succ : ℕ → List ℕ) (lo n : ℕ) (delta : ℕ → ℕ) : Prop where
  window : ∀ i, lo ≤ i → i < lo + n → delta i ≤ w
  first : ∀ i, lo ≤ i → i < lo + n → lo + delta i ≤ i
  depth_le : ∀ i, lo ≤ i → i < lo + n → depth delta i ≤ max_ref_count
  target : ∀ i, lo ≤ i → i < lo + n → delta i ≠ 0 → succ (i - delta i) ≠ []

theorem Pushed.layout {delta : ℕ → ℕ} {n : ℕ}
    (h : Pushed dsi cf w m max_ref_count start succ delta (start + n) c) :
    Layout w max_ref_count succ start n delta where
  window i h1 h2 := (h.chosen i h1 h2).window
  first i h1 h2 := (h.chosen i h1 h2).first
  depth_le i h1 h2 := (h.chosen i h1 h2).depth_le
  target i h1 h2 h0 := by
    obtain h0' | ⟨-, hne⟩ := (h.chosen i h1 h2).permitted
    · exact absurd h0' h0
    · exact hne

/-- What all pushes have written. -/
theorem extend_new (dsi : DsiBitstream) (cf : CompFlags) (w m max_ref_count start : ℕ)
    (succ : ℕ → List ℕ) (n : ℕ) :
    ∃ delta, Pushed dsi cf w m max_ref_count start succ delta (start + n)
        ((BvComp.new w max_ref_count m start).extend dsi cf ((List.range' start n).map succ)).1 ∧
      ((BvComp.new w max_ref_count m start).extend dsi cf ((List.range' start n).map succ)).2 =
        (List.range' start n).map (node_bits dsi cf w m succ delta) := by
  obtain ⟨delta, -, hd, hbits⟩ := extend_spec n
    (pushed_new dsi cf w m max_ref_count start succ fun _ => 0)
  exact ⟨delta, hd, hbits⟩

theorem stream_calls_lt (dsi : DsiBitstream) (w m : ℕ) {delta : ℕ → ℕ} {n : ℕ} (hn : node + n ≤ 2 ^ 63)
    (hd : ∀ i, node ≤ i → i < node + n → delta i ≤ i) (h : ∀ i < node + n, Successors (succ i)) :
    ∀ c ∈ stream_calls dsi w m succ delta node n, c.2 < CODE_MAX := by
  intro c hc
  obtain ⟨i, hi, hci⟩ := List.mem_flatMap.1 hc
  obtain ⟨h1, h2⟩ := List.mem_range'_1.1 hi
  exact node_calls_lt dsi (by omega) (hd i h1 h2) (h _ (by omega)).length_le (h i h2) c hci

end

/-! ### The iterator -/

section

variable {σ : Type} {dsi : DsiBitstream} {decoder : Component → StateT σ Option ℕ}
  {succ : ℕ → List ℕ}

/-- The iterator holds the lists of the window. -/
structure Iter.Ok (succ : ℕ → List ℕ) (it : Iter σ) : Prop where
  len : it.backrefs.len = it.compression_window + 1
  near : Near it.compression_window it.backrefs succ 0 it.current_node

/-- The iterator after a node. -/
def Iter.after (it : Iter σ) (res : List ℕ) (s : σ) : Iter σ :=
  { it with
    decoder := s
    backrefs := (it.backrefs.replace it.current_node []).replace it.current_node res
    current_node := it.current_node + 1 }

theorem Iter.Ok.after {it : Iter σ} (h : it.Ok succ) (s : σ) :
    (it.after (succ it.current_node) s).Ok succ :=
  ⟨h.len, (h.near.replace h.len []).push h.len⟩

/-- One node. -/
theorem Iter.next_eq {it : Iter σ} (h : it.Ok succ) (hlt : it.current_node < it.number_of_nodes)
    (hn : it.current_node < 2 ^ 63) (hs : Successors (succ it.current_node)) {delta : ℕ}
    (hw : delta ≤ it.compression_window) (hd : delta ≤ it.current_node) {s' : σ}
    (hsup : Supplies decoder (node_calls dsi it.compression_window it.min_interval_length succ
      it.current_node delta) it.decoder s') :
    it.next dsi decoder =
      some (some (it.current_node, succ it.current_node), it.after (succ it.current_node) s') := by
  have hread := write_reads dsi decoder hn (h.near.replace h.len []) hw hd hs _ _ hsup
  unfold Iter.next
  rw [if_neg (not_le.2 hlt)]
  simp only [hread, Option.bind_eq_bind, Option.bind_some]
  rfl

/-- **The iterator gives the lists of a stream.** -/
theorem stream_gives {delta : ℕ → ℕ} (n : ℕ) (it : Iter σ) (h : it.Ok succ)
    (hn : it.current_node + n ≤ it.number_of_nodes) (hmax : it.number_of_nodes ≤ 2 ^ 63)
    (hw : ∀ i, it.current_node ≤ i → i < it.current_node + n → delta i ≤ it.compression_window)
    (hd : ∀ i, it.current_node ≤ i → i < it.current_node + n → delta i ≤ i)
    (hs : ∀ i < it.number_of_nodes, Successors (succ i)) {s' : σ}
    (hsup : Supplies decoder (stream_calls dsi it.compression_window it.min_interval_length succ
      delta it.current_node n) it.decoder s') :
    ∃ it' : Iter σ, Gives (Iter.next dsi decoder)
        ((List.range' it.current_node n).map fun i => (i, succ i)) it it' ∧
      it'.decoder = s' ∧ it'.current_node = it.current_node + n ∧
      it'.number_of_nodes = it.number_of_nodes := by
  induction n generalizing it with
  | zero => exact ⟨it, rfl, hsup, rfl, rfl⟩
  | succ n ih =>
    rw [stream_calls, List.range'_succ, List.flatMap_cons, supplies_append] at hsup
    obtain ⟨s₁, h₁, h₂⟩ := hsup
    have hnext := Iter.next_eq h (by omega) (by omega) (hs _ (by omega))
      (hw _ le_rfl (by omega)) (hd _ le_rfl (by omega)) h₁
    have hcurr : (it.after (succ it.current_node) s₁).current_node = it.current_node + 1 := rfl
    obtain ⟨it', hg, hdec, hnode, hnum⟩ := ih (it.after (succ it.current_node) s₁) (h.after s₁)
      (by rw [hcurr, Nat.add_right_comm]; exact hn) hmax
      (fun i h1 h2 => hw i (by omega) (by omega)) (fun i h1 h2 => hd i (by omega) (by omega)) hs h₂
    rw [List.range'_succ, List.map_cons]
    exact ⟨it', ⟨_, hnext, hg⟩, hdec, by omega, hnum⟩

end

/-- The iterator over the bits of a stream, whatever stands behind them. -/
theorem iter_new_yields (dsi : DsiBitstream) (cf : CompFlags) {w m max_ref_count n : ℕ}
    {succ : ℕ → List ℕ} {delta : ℕ → ℕ} (hd : Layout w max_ref_count succ 0 n delta)
    (hmax : n ≤ 2 ^ 63) (hs : ∀ i < n, Successors (succ i)) (rest : List Bool) :
    Yields (Iter.next dsi (cf.decoder dsi)) ((List.range n).map fun i => (i, succ i))
      (Iter.new (cf.encode dsi (stream_calls dsi w m succ delta 0 n) ++ rest) n w m) := by
  have hfirst : ∀ i < n, delta i ≤ i := fun i hi => by
    have := hd.first i (Nat.zero_le i) (by omega)
    omega
  have hlt : ∀ c ∈ stream_calls dsi w m succ delta 0 n, c.2 < CODE_MAX :=
    stream_calls_lt dsi w m (by omega) (fun i _ hi => hfirst i (by omega))
      fun i hi => hs i (by omega)
  have hsup := supplies_encode dsi cf hlt rest
  obtain ⟨it', hg, -, hnode, hnum⟩ := stream_gives n
    (Iter.new (cf.encode dsi (stream_calls dsi w m succ delta 0 n) ++ rest) n w m)
    ⟨rfl, fun i _ hi => absurd hi (Nat.not_lt_zero i)⟩ (Nat.zero_add n).le hmax
    (fun i h1 h2 => hd.window i h1 h2)
    (fun i _ hi => hfirst i (by rw [← Nat.zero_add n]; exact hi)) hs hsup
  rw [List.range_eq_range']
  refine ⟨it', hg, it', if_pos ?_⟩
  rw [hnum, hnode]
  exact (Nat.zero_add n).ge

end Rbsc.BvGraph
