import Rbsc.BvGraph.Random

/-!
# BVGraph: round trips

The bits of a graph, read back in each of the ways that webgraph has.

* `gamma_bits`: a `DsiBitstream` with γ and unary codes alone, to run the model with;
* `Encoded`: bits with references that random access can follow; the sequential iterator, the one
  over offsets and degrees, random access at the offsets, and a sequential iterator that random
  access starts in the middle;
* `written_references`: what `BvComp` writes is one, with the cheapest references.
-/

namespace Rbsc.BvGraph

open Arrays Decoding

/-! ### A bitstream to run the model with -/

/-- The number of zeros before the first one, in big-endian unary code. -/
def read_unary : List Bool → Option (ℕ × List Bool)
  | [] => none
  | true :: rest => some (0, rest)
  | false :: rest => (read_unary rest).map fun p => (p.1 + 1, p.2)

theorem read_unary_replicate (n : ℕ) (rest : List Bool) :
    read_unary (List.replicate n false ++ true :: rest) = some (n, rest) := by
  induction n with
  | zero => rfl
  | succ n ih => simp [List.replicate_succ, read_unary, ih]

/-- The lowest bits of a number, the highest of them first. -/
def write_bits : ℕ → ℕ → List Bool
  | 0, _ => []
  | l + 1, n => n.testBit l :: write_bits l n

def read_bits : ℕ → List Bool → Option (ℕ × List Bool)
  | 0, bits => some (0, bits)
  | _ + 1, [] => none
  | l + 1, bit :: bits => (read_bits l bits).map fun p => (p.1 + 2 ^ l * bit.toNat, p.2)

theorem read_write_bits (l n : ℕ) (rest : List Bool) :
    read_bits l (write_bits l n ++ rest) = some (n % 2 ^ l, rest) := by
  induction l with
  | zero => simp [read_bits, write_bits, Nat.mod_one]
  | succ l ih => simp [read_bits, write_bits, ih, Nat.mod_pow_succ, Nat.toNat_testBit]

theorem length_write_bits (l n : ℕ) : (write_bits l n).length = l := by
  induction l with
  | zero => rfl
  | succ l ih => simp [write_bits, ih]

/-- The γ code: the length in unary code, and the bits below the highest. -/
def write_gamma (n : ℕ) : List Bool :=
  List.replicate (n + 1).log2 false ++ true :: write_bits (n + 1).log2 (n + 1)

def read_gamma (bits : List Bool) : Option (ℕ × List Bool) := do
  let (l, bits) ← read_unary bits
  let (n, bits) ← read_bits l bits
  some (2 ^ l + n - 1, bits)

/-- A number from the length of its successor and the bits below the highest. -/
theorem of_log2_bits (n : ℕ) : 2 ^ (n + 1).log2 + (n + 1) % 2 ^ (n + 1).log2 - 1 = n := by
  have hlow : 2 ^ (n + 1).log2 ≤ n + 1 := Nat.log2_self_le (Nat.succ_ne_zero n)
  have hhigh : n + 1 < 2 ^ (n + 1).log2 + 2 ^ (n + 1).log2 := by
    have := Nat.lt_log2_self (n := n + 1)
    omega
  rw [Nat.mod_eq_sub_mod hlow, Nat.mod_eq_of_lt (by omega)]
  omega

theorem read_write_gamma (n : ℕ) (rest : List Bool) :
    read_gamma (write_gamma n ++ rest) = some (n, rest) := by
  rw [read_gamma, write_gamma, List.append_assoc, List.cons_append, read_unary_replicate]
  simp only [Option.bind_eq_bind, Option.bind_some, read_write_bits, of_log2_bits]

/-- The γ code of a little-endian stream, where the lowest bit of a number comes first. -/
def write_little_gamma (n : ℕ) : List Bool :=
  List.replicate (n + 1).log2 false ++ true :: (write_bits (n + 1).log2 (n + 1)).reverse

def read_little_gamma (bits : List Bool) : Option (ℕ × List Bool) := do
  let (l, bits) ← read_unary bits
  let (n, _) ← read_bits l (bits.take l).reverse
  some (2 ^ l + n - 1, bits.drop l)

theorem read_write_little_gamma (n : ℕ) (rest : List Bool) :
    read_little_gamma (write_little_gamma n ++ rest) = some (n, rest) := by
  have hlen : (write_bits (n + 1).log2 (n + 1)).reverse.length = (n + 1).log2 := by
    rw [List.length_reverse, length_write_bits]
  have hread := read_write_bits (n + 1).log2 (n + 1) []
  rw [List.append_nil] at hread
  rw [read_little_gamma, write_little_gamma, List.append_assoc, List.cons_append,
    read_unary_replicate]
  simp only [Option.bind_eq_bind, Option.bind_some, List.take_left' hlen, List.drop_left' hlen,
    List.reverse_reverse, hread, of_log2_bits]

/-- γ codes, and unary codes in place of all others, with words of 64 bits. -/
def gamma_bits : DsiBitstream where
  to_nat z := if 0 ≤ z then (2 * z).toNat else (-2 * z - 1).toNat
  to_int n := if n % 2 = 0 then n / 2 else -((n + 1) / 2)
  write
    | .gamma, n => write_gamma n
    | _, n => List.replicate n false ++ [true]
  read
    | .gamma => read_gamma
    | _ => read_unary
  len
    | .gamma, n => 2 * (n + 1).log2 + 1
    | _, n => n + 1
  flush bits := bits ++ List.replicate ((64 - bits.length % 64) % 64) false
  to_int_to_nat z _ _ := by split <;> split <;> omega
  to_nat_lt z _ _ := by unfold CODE_MAX; split <;> omega
  read_write c n rest _ := by
    cases c with
    | gamma => exact read_write_gamma n rest
    | _ =>
      rw [List.append_assoc]
      exact read_unary_replicate n rest
  len_eq c n _ := by
    cases c with
    | gamma =>
      simp [write_gamma, length_write_bits]
      omega
    | _ => simp
  prefix_flush bits := List.prefix_append ..

/-- The same for little-endian streams. -/
def little_gamma_bits : DsiBitstream where
  to_nat := gamma_bits.to_nat
  to_int := gamma_bits.to_int
  write
    | .gamma, n => write_little_gamma n
    | c, n => gamma_bits.write c n
  read
    | .gamma => read_little_gamma
    | c => gamma_bits.read c
  len := gamma_bits.len
  flush := gamma_bits.flush
  to_int_to_nat := gamma_bits.to_int_to_nat
  to_nat_lt := gamma_bits.to_nat_lt
  read_write c n rest hn := by
    cases c with
    | gamma => exact read_write_little_gamma n rest
    | unary => exact gamma_bits.read_write .unary n rest hn
    | delta => exact gamma_bits.read_write .delta n rest hn
    | zeta k => exact gamma_bits.read_write (.zeta k) n rest hn
    | other m => exact gamma_bits.read_write (.other m) n rest hn
  len_eq c n hn := by
    cases c with
    | gamma =>
      rw [gamma_bits.len_eq .gamma n hn]
      simp [gamma_bits, write_gamma, write_little_gamma]
    | unary => exact gamma_bits.len_eq .unary n hn
    | delta => exact gamma_bits.len_eq .delta n hn
    | zeta k => exact gamma_bits.len_eq (.zeta k) n hn
    | other m => exact gamma_bits.len_eq (.other m) n hn
  prefix_flush := gamma_bits.prefix_flush

/-- The flags for unary codes. -/
def unary_flags : CompFlags where
  outdegrees := .unary
  references := .unary
  blocks := .unary
  intervals := .unary
  residuals := .unary
  min_interval_length := 2
  compression_window := 1
  max_ref_count := 3

/-! ### A compressed graph -/

/-- Graphs whose successors come in increasing order, as `BvComp` asks for, with nodes that `i64`
has. -/
structure Sorted (g : WebGraph) : Prop where
  sorted : ∀ src < g.num_nodes, (g.successors src).Pairwise (· < ·)
  num_nodes_le : g.num_nodes ≤ 2 ^ 63

theorem Sorted.successors {g : WebGraph} (h : Sorted g) (i : ℕ) (hi : i < g.num_nodes) :
    Successors (g.successors i) :=
  ⟨h.sorted i hi, fun x hx => (g.below i hi x hx).trans_le h.num_nodes_le⟩

/-- Two nodes with the same two successors, and a node with none. -/
def twins : WebGraph where
  num_nodes := 3
  successors src := if src < 2 then [1, 2] else []
  below := by decide
  distinct := by decide

theorem twins_sorted : Sorted twins := ⟨by decide, by decide⟩

section

variable (dsi : DsiBitstream) (cf : CompFlags) (w max_ref_count m : ℕ) (g : WebGraph)

/-- The compressor after all nodes, and the number of bits of each node. -/
def written : BvComp × List ℕ :=
  (BvComp.new w max_ref_count m 0).extend dsi cf (g.iter.map Prod.snd)

-- Node `1` is a copy of node `0`.
example : (written gamma_bits unary_flags 1 3 2 twins).2 = [10, 6, 1] := by decide +kernel

theorem map_snd_iter : g.iter.map Prod.snd = (List.range g.num_nodes).map g.successors := by
  simp [WebGraph.iter, List.map_map, Function.comp_def]

theorem written_spec : ∃ delta,
    Pushed dsi cf w m max_ref_count 0 g.successors delta g.num_nodes
      (written dsi cf w max_ref_count m g).1 ∧
    (written dsi cf w max_ref_count m g).2 =
      (List.range g.num_nodes).map (node_bits dsi cf w m g.successors delta) := by
  have h := extend_new dsi cf w m max_ref_count 0 g.successors g.num_nodes
  rw [Nat.zero_add, ← List.range_eq_range'] at h
  rw [written, map_snd_iter]
  exact h

/-- The bits of all nodes of a graph, with references that random access can follow, and the number
of bits of each node. -/
structure Encoded (bits : List Bool) (deltas : List ℕ) (delta : ℕ → ℕ) : Prop where
  layout : Layout w max_ref_count g.successors 0 g.num_nodes delta
  bits_eq : bits = cf.encode dsi (stream_calls dsi w m g.successors delta 0 g.num_nodes)
  deltas_eq : deltas = (List.range g.num_nodes).map (node_bits dsi cf w m g.successors delta)

theorem written_encoded : ∃ delta, Encoded dsi cf w max_ref_count m g
    (written dsi cf w max_ref_count m g).1.encoder (written dsi cf w max_ref_count m g).2 delta := by
  obtain ⟨delta, hd, hbits⟩ := written_spec dsi cf w max_ref_count m g
  exact ⟨delta, Pushed.layout (by rwa [Nat.zero_add]), by rw [hd.encoder, Nat.sub_zero], hbits⟩

/-- The calls of the first node of a stream. -/
theorem supplies_node_calls {decoder : Component → StateT (List Bool) Option ℕ} {delta : ℕ → ℕ}
    {succ : ℕ → List ℕ} {node n : ℕ} {s s' : List Bool} (hn : 0 < n)
    (h : Supplies decoder (stream_calls dsi w m succ delta node n) s s') :
    ∃ s₁, Supplies decoder (node_calls dsi w m succ node (delta node)) s s₁ := by
  obtain ⟨n, rfl⟩ : ∃ k, n = 1 + k := ⟨n - 1, by omega⟩
  rw [stream_calls_append, supplies_append, stream_calls, List.range'_one, List.flatMap_singleton]
    at h
  obtain ⟨s₁, h₁, -⟩ := h
  exact ⟨s₁, h₁⟩

namespace Encoded

variable {dsi cf w max_ref_count m g} {bits : List Bool} {deltas : List ℕ} {delta : ℕ → ℕ}
  (e : Encoded dsi cf w max_ref_count m g bits deltas delta)
include e

theorem delta_le {i : ℕ} (hi : i < g.num_nodes) : delta i ≤ i := by
  have := e.layout.first i (Nat.zero_le i) (by omega)
  omega

theorem sum_deltas : deltas.sum = bits.length := by
  rw [e.deltas_eq, e.bits_eq, length_encode_stream, List.range_eq_range']

theorem iter (h : Sorted g) (rest : List Bool) :
    Yields (Iter.next dsi (cf.decoder dsi)) g.iter (Iter.new (bits ++ rest) g.num_nodes w m) := by
  rw [e.bits_eq]
  exact iter_new_yields dsi cf e.layout h.num_nodes_le h.successors rest

/-- The iterator over the offsets and the degrees, when it ends. -/
theorem degrees (h : Sorted g) (rest : List Bool) : ∃ it' : OffsetDegIter (List Bool),
    Gives (OffsetDegIter.next (cf.decoder dsi) fun s => (bits ++ rest).length - s.length)
      ((List.range' 0 g.num_nodes).map fun i =>
        (offset dsi cf w m g.successors delta i, (g.successors i).length))
      (OffsetDegIter.new (bits ++ rest) g.num_nodes w m) it' ∧
    it'.number_of_nodes ≤ it'.node_id ∧
    (bits ++ rest).length - it'.decoder.length =
      offset dsi cf w m g.successors delta g.num_nodes := by
  have htotal : offset dsi cf w m g.successors delta g.num_nodes + rest.length =
      (bits ++ rest).length := by
    rw [e.bits_eq, List.length_append, length_encode_stream, offset, List.range_eq_range']
  obtain ⟨it', hg, hdec, hnode, hnum⟩ := degrees_gives (bits ++ rest).length g.num_nodes rest
    (OffsetDegIter.new (bits ++ rest) g.num_nodes w m)
    ⟨rfl, rfl, fun i _ hi => absurd hi (Nat.not_lt_zero i), by rw [e.bits_eq]; rfl⟩
    (Nat.zero_add _) (Nat.zero_add _).le h.num_nodes_le
    (fun i h1 h2 => e.layout.window i h1 h2)
    (fun i _ hi => e.delta_le (by rw [← Nat.zero_add g.num_nodes]; exact hi)) h.successors
  refine ⟨it', hg, ?_, by rw [hdec]; omega⟩
  rw [hnum, hnode]
  exact (Nat.zero_add _).ge

theorem build_offsets (h : Sorted g) (rest : List Bool) :
    BvGraph.build_offsets (cf.decoder dsi) (fun s => (bits ++ rest).length - s.length)
        (g.num_nodes + 1) 0 (OffsetDegIter.new (bits ++ rest) g.num_nodes w m) =
      some (0 :: deltas) := by
  obtain ⟨it', hg, hend, hpos⟩ := e.degrees h rest
  rw [e.deltas_eq, List.range_eq_range']
  exact build_offsets_gives 0 g.num_nodes 0 _ (Nat.zero_le _) hg hend
    (by rw [hpos, Nat.zero_add]) (Nat.lt_succ_self _)

/-- The bits from the offset of a node on. -/
theorem drop_offset {node : ℕ} (hnode : node ≤ g.num_nodes) (rest : List Bool) :
    (bits ++ rest).drop (offset dsi cf w m g.successors delta node) =
      cf.encode dsi (stream_calls dsi w m g.successors delta node (g.num_nodes - node)) ++ rest := by
  have hoffset : offset dsi cf w m g.successors delta node =
      (cf.encode dsi (stream_calls dsi w m g.successors delta 0 node)).length := by
    rw [length_encode_stream, offset, List.range_eq_range']
  have hsplit : stream_calls dsi w m g.successors delta 0 g.num_nodes =
      stream_calls dsi w m g.successors delta 0 node ++
        stream_calls dsi w m g.successors delta node (g.num_nodes - node) := by
    have hadd := stream_calls_append dsi w m g.successors delta 0 node (g.num_nodes - node)
    rwa [Nat.zero_add, Nat.add_sub_cancel' hnode] at hadd
  rw [hoffset, e.bits_eq, hsplit, CompFlags.encode_append, List.append_assoc, List.drop_left]

variable {new_decoder : ℕ → List Bool} {rest : List Bool}
  (hdec : ∀ node ≤ g.num_nodes,
    new_decoder node = (bits ++ rest).drop (offset dsi cf w m g.successors delta node))
include hdec

/-- The decoder at the offset of a node supplies the stream from that node on. -/
theorem new_decoder_supplies (h : Sorted g) {node : ℕ} (hnode : node ≤ g.num_nodes) :
    Supplies (cf.decoder dsi)
      (stream_calls dsi w m g.successors delta node (g.num_nodes - node))
      (new_decoder node) rest := by
  have hn := h.num_nodes_le
  rw [hdec node hnode, e.drop_offset hnode]
  exact supplies_encode dsi cf (stream_calls_lt dsi w m (by omega)
    (fun i h1 h2 => e.delta_le (by omega)) fun i hi => h.successors i (by omega)) rest

theorem successors (h : Sorted g) {node : ℕ} (hnode : node < g.num_nodes) :
    BvGraph.successors dsi (cf.decoder dsi) w m new_decoder (max_ref_count + 1) node =
      some (g.successors node) :=
  successors_eq dsi e.layout h.num_nodes_le h.successors _
    (fun i hi => supplies_node_calls dsi w m (by omega) (e.new_decoder_supplies hdec h hi.le))
    hnode (Nat.lt_succ_self _)

theorem iter_from (h : Sorted g) {start : ℕ} (hstart : start ≤ g.num_nodes) :
    ∃ it, BvGraph.iter_from dsi (cf.decoder dsi) g.num_nodes w m new_decoder (max_ref_count + 1)
        start = some it ∧
      Yields (Iter.next dsi (cf.decoder dsi)) (g.iter.drop start) it := by
  obtain ⟨it, hit, hok, hnum, hwin, hmin, hcurr, hd⟩ := iter_from_eq dsi e.layout h.num_nodes_le
    h.successors _
    (fun i hi => supplies_node_calls dsi w m (by omega) (e.new_decoder_supplies hdec h hi.le))
    hstart (Nat.lt_succ_self _)
  refine ⟨it, hit, ?_⟩
  have hsup := e.new_decoder_supplies hdec h hstart
  rw [← hd, ← hwin, ← hmin, ← hcurr] at hsup
  obtain ⟨it', hg, -, hnode', hnum'⟩ := stream_gives (g.num_nodes - it.current_node) it hok
    (by omega) (hnum ▸ h.num_nodes_le)
    (fun i h1 h2 => hwin ▸ e.layout.window i (Nat.zero_le i) (by omega))
    (fun i h1 h2 => e.delta_le (by omega)) (hnum ▸ h.successors) hsup
  have hdrop : g.iter.drop start = (List.range' it.current_node (g.num_nodes - it.current_node)).map
      fun i => (i, g.successors i) := by
    rw [WebGraph.iter, ← List.map_drop, List.range_eq_range', List.drop_range', hcurr]
    simp
  rw [hdrop]
  exact ⟨it', hg, it', if_pos (by omega)⟩

end Encoded

variable {g}

theorem cost_eq {dsi : DsiBitstream} {cf : CompFlags} {w m d i : ℕ} {succ : ℕ → List ℕ}
    (hi : i < 2 ^ 63) (hd : d ≤ i) (hs : ∀ j ≤ i, Successors (succ j)) :
    cost dsi cf w m succ i d = (cf.encode dsi (node_calls dsi w m succ i d)).length :=
  estimate_eq dsi cf (node_calls_lt dsi hi hd (hs _ (Nat.sub_le _ _)).length_le (hs i le_rfl))

/-- **The references.**  Each node is written with a reference in the window that has successors
and fewer than `max_ref_count` references behind it, or with none; no other that is tried takes
fewer bits, and a nearer one takes more.  The bits that `push` returns are those the estimator has
counted. -/
theorem written_references (h : Sorted g) : ∃ delta : ℕ → ℕ,
    (written dsi cf w max_ref_count m g).1.encoder =
      cf.encode dsi (stream_calls dsi w m g.successors delta 0 g.num_nodes) ∧
    ∀ i < g.num_nodes, Chosen dsi cf w m max_ref_count 0 g.successors (depth delta) i (delta i) ∧
      depth delta i ≤ max_ref_count ∧
      (written dsi cf w max_ref_count m g).2[i]? =
        some (cost dsi cf w m g.successors i (delta i)) := by
  obtain ⟨delta, hd, hbits⟩ := written_spec dsi cf w max_ref_count m g
  refine ⟨delta, hd.encoder, fun i hi => ?_⟩
  have hc := hd.chosen i (Nat.zero_le i) hi
  have hfirst := hc.first
  have hn := h.num_nodes_le
  refine ⟨hc, hc.depth_le, ?_⟩
  rw [hbits, cost_eq (by omega) (by omega) fun j hj => h.successors j (by omega)]
  simp [hi, node_bits]

theorem twins_references : ∃ delta : ℕ → ℕ,
    (written gamma_bits unary_flags 1 3 2 twins).1.encoder = unary_flags.encode gamma_bits
      (stream_calls gamma_bits 1 2 twins.successors delta 0 3) ∧
    ∀ i < 3, Chosen gamma_bits unary_flags 1 2 3 0 twins.successors (depth delta) i (delta i) ∧
      depth delta i ≤ 3 ∧ (written gamma_bits unary_flags 1 3 2 twins).2[i]? =
        some (cost gamma_bits unary_flags 1 2 twins.successors i (delta i)) :=
  written_references gamma_bits unary_flags 1 3 2 twins_sorted

end

end Rbsc.BvGraph
