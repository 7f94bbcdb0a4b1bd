import Rbsc.Lib.Arrays
import Rbsc.Lib.Decoding

/-!
# BVGraph

The compressed graphs that the exporters read: `BvComp::push`, which writes the successors of one
node after the other, and `Iter`, which reads them back.  A list of successors is written as blocks
copied from the list of an earlier node, intervals of consecutive numbers, and the residuals.

The instantaneous codes are those of dsi-bitstream (`DsiBitstream`).  `Compressor.write` is given by
the calls it makes on its writer; an encoder writes them as bits and an estimator adds their
lengths.  What panics is `none`.
-/

namespace Rbsc.BvGraph

open Arrays

/-! ### The codes -/

/-- `Codes`; `other` stands for those that `code_to_str` has no name for. -/
inductive Codes
  | unary
  | gamma
  | delta
  | zeta (k : ℕ)
  | other (n : ℕ)
deriving DecidableEq

/-- The codes that `code_to_str` names, without ζ₁, which has the words of γ. -/
def Codes.Plain : Codes → Prop
  | .zeta k => 2 ≤ k
  | .other _ => False
  | _ => True

/-- `PartialEq` for `Codes`, of dsi-bitstream, which may take codes with the same words for equal. -/
class CodesEq where
  eq : Codes → Codes → Bool
  eq_iff : ∀ {code code' : Codes}, code.Plain → code'.Plain → (eq code code' = true ↔ code = code')

/-- What is written with one of the methods of `Encode` and read with one of `Decode`. -/
inductive Component
  | outdegree
  | reference_offset
  | block_count
  | block
  | interval_count
  | interval_start
  | interval_len
  | first_residual
  | residual
deriving DecidableEq

/-- A call of a method of `Encode`. -/
abbrev Call := Component × ℕ

/-- The numbers that the codes are for: `u64` without its largest. -/
def CODE_MAX : ℕ := 2 ^ 64 - 1

/-- What the program uses of dsi-bitstream. -/
structure DsiBitstream where
  /-- `ToNat::to_nat` -/
  to_nat : ℤ → ℕ
  /-- `ToInt::to_int` -/
  to_int : ℕ → ℤ
  /-- `FuncCodeWriter::write` -/
  write : Codes → ℕ → List Bool
  /-- `FuncCodeReader::read` -/
  read : Codes → StateT (List Bool) Option ℕ
  /-- `FuncCodeLen::len` -/
  len : Codes → ℕ → ℕ
  /-- `BufBitWriter::flush`: the bits of the file -/
  flush : List Bool → List Bool
  to_int_to_nat : ∀ z : ℤ, -2 ^ 63 < z → z < 2 ^ 63 → to_int (to_nat z) = z
  to_nat_lt : ∀ z : ℤ, -2 ^ 63 < z → z < 2 ^ 63 → to_nat z < CODE_MAX
  read_write : ∀ c n rest, n < CODE_MAX → read c (write c n ++ rest) = some (n, rest)
  len_eq : ∀ c n, n < CODE_MAX → len c n = (write c n).length
  prefix_flush : ∀ bits, bits <+: flush bits

/-- `CompFlags`. -/
structure CompFlags where
  outdegrees : Codes
  references : Codes
  blocks : Codes
  intervals : Codes
  residuals : Codes
  min_interval_length : ℕ
  compression_window : ℕ
  max_ref_count : ℕ
deriving DecidableEq

namespace CompFlags

/-- `CompFlags::default`. -/
def default : CompFlags where
  outdegrees := .gamma
  references := .unary
  blocks := .gamma
  intervals := .gamma
  residuals := .zeta 3
  min_interval_length := 4
  compression_window := 7
  max_ref_count := 3

/-- The code of a component, in `DynCodesEncoder::new`, `DynCodesEstimator::new` and
`DynCodesDecoder::new` alike. -/
def code (cf : CompFlags) : Component → Codes
  | .outdegree => cf.outdegrees
  | .reference_offset => cf.references
  | .block_count | .block => cf.blocks
  | .interval_count | .interval_start | .interval_len => cf.intervals
  | .first_residual | .residual => cf.residuals

variable (dsi : DsiBitstream) (cf : CompFlags)

/-- `DynCodesEncoder`: the bits of some calls. -/
def encode (calls : List Call) : List Bool := calls.flatMap fun c => dsi.write (cf.code c.1) c.2

/-- `DynCodesEstimator`: the number of bits. -/
def estimate (calls : List Call) : ℕ := (calls.map fun c => dsi.len (cf.code c.1) c.2).sum

/-- `DynCodesDecoder`. -/
def decoder (c : Component) : StateT (List Bool) Option ℕ := dsi.read (cf.code c)

end CompFlags

/-! ### `CircularBuffer` -/

/-- `CircularBuffer`: the places are those of `data` below `len`. -/
structure CircularBuffer (α : Type) where
  len : ℕ
  data : Arr α
  pos : 0 < len

namespace CircularBuffer

variable {α : Type}

/-- `CircularBuffer::new(window + 1)`, with `d` the default value. -/
def new (window : ℕ) (d : α) : CircularBuffer α := ⟨window + 1, .const d, by omega⟩

/-- `buffer[i]`. -/
def index (b : CircularBuffer α) (i : ℕ) : α := b.data (i % b.len)

/-- `buffer.replace(i, x)`, and `buffer[i] = x`. -/
def replace (b : CircularBuffer α) (i : ℕ) (x : α) : CircularBuffer α :=
  { b with data := b.data.set (i % b.len) x }

end CircularBuffer

/-! ### `Compressor` -/

/-- `x as i64`. -/
def asI64 (x : ℕ) : ℤ := Int.bmod x (2 ^ 64)

/-- `z as usize`. -/
def asUsize (z : ℤ) : ℕ := (z % 2 ^ 64).toNat

/-- `x as i64 - node as i64`. -/
def i64_offset (x node : ℕ) : ℤ := Int.bmod (asI64 x - asI64 node) (2 ^ 64)

/-- `(node as i64 + offset) as usize`. -/
def offset_node (node : ℕ) (offset : ℤ) : ℕ := asUsize (asI64 node + offset)

/-- The loop of `diff_comp` from two positions in the lists on: the blocks and the extra nodes that
it pushes. -/
def diff_comp_loop : List ℕ → List ℕ → ℕ → Bool → List ℕ × List ℕ
  | j :: js, k :: ks, curr_block_len, true =>
    if k < j then
      let p := diff_comp_loop (j :: js) (k :: ks) 0 false
      (curr_block_len :: p.1, p.2)
    else if j < k then
      let p := diff_comp_loop js (k :: ks) curr_block_len true
      (p.1, j :: p.2)
    else diff_comp_loop js ks (curr_block_len + 1) true
  | j :: js, k :: ks, curr_block_len, false =>
    if k < j then diff_comp_loop (j :: js) ks (curr_block_len + 1) false
    else if j < k then
      let p := diff_comp_loop js (k :: ks) curr_block_len false
      (p.1, j :: p.2)
    else
      let p := diff_comp_loop (j :: js) (k :: ks) 0 true
      (curr_block_len :: p.1, p.2)
  | [], _ :: _, curr_block_len, copying => (if copying then [curr_block_len] else [], [])
  | curr_list, [], _, _ => ([], curr_list)
termination_by curr_list ref_list _ copying =>
  -- a block is flushed without a step in the lists, and the next round takes one
  2 * (curr_list.length + ref_list.length) +
    (if copying = decide (ref_list.headD 0 < curr_list.headD 0) then 1 else 0)
decreasing_by all_goals simp_all <;> (try split) <;> omega

/-- `diff_comp`: one more is added to the first block, which alone may be empty. -/
def diff_comp (curr_list ref_list : List ℕ) : List ℕ × List ℕ :=
  let p := diff_comp_loop curr_list ref_list 0 true
  (p.1.modifyHead (· + 1), p.2)

/-- The number of elements after `x` that follow it without a gap. -/
def run_length : ℕ → List ℕ → ℕ
  | _, [] => 0
  | x, y :: ys => if x + 1 = y then run_length y ys + 1 else 0

/-- `intervalize` from a position on: the intervals and the residuals that it pushes. -/
def intervalize (min_interval_length : ℕ) : List ℕ → List (ℕ × ℕ) × List ℕ
  | [] => ([], [])
  | x :: xs =>
    -- the number of integers in the interval, if there is one
    let j := if run_length x xs = 0 then 0 else run_length x xs + 1
    if j ≠ 0 ∧ min_interval_length ≤ j then
      let p := intervalize min_interval_length (xs.drop (j - 1))
      ((x, j) :: p.1, p.2)
    else
      let p := intervalize min_interval_length xs
      (p.1, if j < min_interval_length then x :: p.2 else p.2)
termination_by xs => xs.length
decreasing_by all_goals simp only [List.length_drop, List.length_cons]; omega

/-- `Compressor`. -/
structure Compressor where
  outdegree : ℕ := 0
  blocks : List ℕ := []
  extra_nodes : List ℕ := []
  left_interval : List ℕ := []
  len_interval : List ℕ := []
  residuals : List ℕ := []
deriving DecidableEq

/-- `write_interval_start` and `write_interval_len` for the intervals after one that ends before
`prev`. -/
def write_intervals (min_interval_length : ℕ) : ℕ → List (ℕ × ℕ) → List Call
  | _, [] => []
  | prev, (left, len) :: intervals =>
    (.interval_start, left - prev - 1) :: (.interval_len, len - min_interval_length) ::
      write_intervals min_interval_length (left + len) intervals

/-- The intervals, in `write`. -/
def write_first_interval (dsi : DsiBitstream) (curr_node min_interval_length : ℕ)
    (intervals : List (ℕ × ℕ)) : List Call :=
  (.interval_count, intervals.length) ::
    match intervals with
    | [] => []
    | (left, len) :: intervals =>
      (.interval_start, dsi.to_nat (i64_offset left curr_node)) ::
        (.interval_len, len - min_interval_length) ::
          write_intervals min_interval_length (left + len) intervals

/-- `write_residual` for the residuals after `prev`. -/
def write_residuals : ℕ → List ℕ → List Call
  | _, [] => []
  | prev, x :: xs => (.residual, x - prev - 1) :: write_residuals x xs

/-- The residuals, in `write`. -/
def write_first_residual (dsi : DsiBitstream) (curr_node : ℕ) : List ℕ → List Call
  | [] => []
  | x :: xs => (.first_residual, dsi.to_nat (i64_offset x curr_node)) :: write_residuals x xs

namespace Compressor

/-- `Compressor::new`, and `clear`. -/
def empty : Compressor := {}

/-- `compress`. -/
def compress (curr_list : List ℕ) (ref_list : Option (List ℕ)) (min_interval_length : ℕ) :
    Compressor :=
  if curr_list = [] then empty
  else
    let p := match ref_list with
      | some ref_list => diff_comp curr_list ref_list
      | none => ([], curr_list)
    let iv := if min_interval_length = 0 then ([], p.2) else intervalize min_interval_length p.2
    { outdegree := curr_list.length
      blocks := p.1
      extra_nodes := p.2
      left_interval := iv.1.map Prod.fst
      len_interval := iv.1.map Prod.snd
      residuals := iv.2 }

variable (dsi : DsiBitstream) (c : Compressor)

/-- The reference and the blocks, in `write`. -/
def write_reference (reference_offset : Option ℕ) : List Call :=
  if c.outdegree = 0 then [] else
    match reference_offset with
    | none => []
    | some reference_offset =>
      (.reference_offset, reference_offset) ::
        if reference_offset = 0 then []
        else (.block_count, c.blocks.length) :: c.blocks.map fun b => (.block, b - 1)

/-- `write`: the calls on the writer, in order. -/
def write (curr_node : ℕ) (reference_offset : Option ℕ) (min_interval_length : ℕ) : List Call :=
  (.outdegree, c.outdegree) :: (c.write_reference reference_offset ++
    (if c.extra_nodes = [] ∨ min_interval_length = 0 then []
      else write_first_interval dsi curr_node min_interval_length
        (c.left_interval.zip c.len_interval)) ++
    write_first_residual dsi curr_node c.residuals)

end Compressor

/-! ### `BvComp` -/

/-- `BvComp`, with the bits that its encoder has written. -/
structure BvComp where
  backrefs : CircularBuffer (List ℕ)
  ref_counts : CircularBuffer ℕ
  encoder : List Bool
  compressors : Arr Compressor
  compression_window : ℕ
  max_ref_count : ℕ
  min_interval_length : ℕ
  curr_node : ℕ
  start_node : ℕ
  arcs : ℕ

/-- The locals of `push` that its loop over the deltas updates. -/
structure Best where
  compressors : Arr Compressor
  min_bits : ℕ
  ref_delta : ℕ
  ref_count : ℕ

namespace BvComp

/-- `BvComp::new`. -/
def new (compression_window max_ref_count min_interval_length start_node : ℕ) : BvComp where
  backrefs := .new compression_window []
  ref_counts := .new compression_window 0
  encoder := []
  compressors := .const .empty
  compression_window := compression_window
  max_ref_count := max_ref_count
  min_interval_length := min_interval_length
  curr_node := start_node
  start_node := start_node
  arcs := 0

variable (dsi : DsiBitstream) (cf : CompFlags)

/-- The body of the loop over the deltas. -/
def try_delta (c : BvComp) (curr_list : List ℕ) (b : Best) (delta : ℕ) : Best :=
  let ref_node := c.curr_node - delta
  let count := c.ref_counts.index ref_node
  if c.max_ref_count ≤ count then b
  else
    let ref_list := c.backrefs.index ref_node
    if ref_list = [] then b
    else
      let compressor := Compressor.compress curr_list (some ref_list) c.min_interval_length
      let compressors := b.compressors.set delta compressor
      let bits :=
        cf.estimate dsi (compressor.write dsi c.curr_node (some delta) c.min_interval_length)
      if bits < b.min_bits then
        { compressors := compressors, min_bits := bits, ref_delta := delta, ref_count := count + 1 }
      else { b with compressors := compressors }

/-- The locals after the loop. -/
def best (c : BvComp) (curr_list : List ℕ) : Best :=
  let compressor := Compressor.compress curr_list none c.min_interval_length
  let min_bits := cf.estimate dsi (compressor.write dsi c.curr_node (some 0) c.min_interval_length)
  let deltas := 1 + min c.compression_window (c.curr_node - c.start_node)
  (List.Ico 1 deltas).foldl (c.try_delta dsi cf curr_list)
    ⟨c.compressors.set 0 compressor, min_bits, 0, 0⟩

/-- `push`, and the number of bits it has written. -/
def push (c : BvComp) (succ : List ℕ) : BvComp × ℕ :=
  let c := { c with
    backrefs := c.backrefs.replace c.curr_node succ
    arcs := c.arcs + succ.length }
  let curr_list := c.backrefs.index c.curr_node
  if c.compression_window = 0 then
    let compressor := Compressor.compress curr_list none c.min_interval_length
    let bits := cf.encode dsi (compressor.write dsi c.curr_node none c.min_interval_length)
    ({ c with
        compressors := c.compressors.set 0 compressor
        encoder := c.encoder ++ bits
        curr_node := c.curr_node + 1 }, bits.length)
  else
    let b := c.best dsi cf curr_list
    let compressor := b.compressors b.ref_delta
    let bits :=
      cf.encode dsi (compressor.write dsi c.curr_node (some b.ref_delta) c.min_interval_length)
    ({ c with
        compressors := b.compressors
        encoder := c.encoder ++ bits
        ref_counts := c.ref_counts.replace c.curr_node b.ref_count
        curr_node := c.curr_node + 1 }, bits.length)

/-- The loop of `extend`, and of `single_thread` and the threads of `parallel_iter`: all lists are
pushed, each with the number of bits that `push` returns. -/
def extend : BvComp → List (List ℕ) → BvComp × List ℕ
  | c, [] => (c, [])
  | c, succ :: lists =>
    let p := c.push dsi cf succ
    let q := extend p.1 lists
    (q.1, p.2 :: q.2)

end BvComp

/-! ### `Iter` -/

/-- `a - b`. -/
def checked_sub (a b : ℕ) : Option ℕ := if b ≤ a then some (a - b) else none

/-- `l[i..j]`. -/
def slice (l : List ℕ) (i j : ℕ) : Option (List ℕ) :=
  if i ≤ j ∧ j ≤ l.length then some ((l.take j).drop i) else none

section

variable {σ : Type} (dsi : DsiBitstream) (decoder : Component → StateT σ Option ℕ)

/-- The distance of the node whose list is copied from, `0` if there is none. -/
def read_ref_delta (compression_window : ℕ) : StateT σ Option ℕ :=
  if compression_window ≠ 0 then decoder .reference_offset else pure 0

/-- The loop over the blocks after the first. -/
def copy_blocks (neighbours : List ℕ) : ℕ → ℕ → ℕ → List ℕ → StateT σ Option (List ℕ × ℕ)
  | 0, _, idx, results => pure (results, idx)
  | todo + 1, block_id, idx, results => do
    let block ← decoder .block
    let last := idx + block + 1
    let results ←
      if block_id % 2 = 0 then do
        let copied ← StateT.lift (slice neighbours idx last)
        pure (results ++ copied)
      else pure results
    copy_blocks neighbours todo (block_id + 1) last results

/-- The nodes that are copied from the reference node. -/
def read_copied (neighbours : List ℕ) : StateT σ Option (List ℕ) := do
  let number_of_blocks ← decoder .block_count
  if number_of_blocks = 0 then pure neighbours
  else
    let idx ← decoder .block
    let results ← StateT.lift (slice neighbours 0 idx)
    let p ← copy_blocks decoder neighbours (number_of_blocks - 1) 1 idx results
    if number_of_blocks % 2 = 0 then
      let copied ← StateT.lift (slice neighbours p.2 neighbours.length)
      pure (p.1 ++ copied)
    else pure p.1

/-- The reference, and the nodes that are copied from it. -/
def read_reference (compression_window : ℕ) (backrefs : CircularBuffer (List ℕ)) (node_id : ℕ) :
    StateT σ Option (List ℕ) := do
  let ref_delta ← read_ref_delta decoder compression_window
  if ref_delta ≠ 0 then
    let reference_node_id ← StateT.lift (checked_sub node_id ref_delta)
    read_copied decoder (backrefs.index reference_node_id)
  else pure []

/-- The loop over the intervals after the first. -/
def read_next_intervals (min_interval_length : ℕ) : ℕ → ℕ → StateT σ Option (List (ℕ × ℕ))
  | 0, _ => pure []
  | todo + 1, start => do
    let gap ← decoder .interval_start
    let len ← decoder .interval_len
    let start := start + (1 + gap)
    let delta := len + min_interval_length
    let intervals ← read_next_intervals min_interval_length todo (start + delta)
    pure ((start, delta) :: intervals)

/-- The intervals, each with its length. -/
def read_intervals (min_interval_length node_id nodes_left_to_decode : ℕ) :
    StateT σ Option (List (ℕ × ℕ)) :=
  if nodes_left_to_decode ≠ 0 ∧ min_interval_length ≠ 0 then do
    let number_of_intervals ← decoder .interval_count
    if number_of_intervals = 0 then pure []
    else
      let offset ← decoder .interval_start
      let start := offset_node node_id (dsi.to_int offset)
      let len ← decoder .interval_len
      let delta := len + min_interval_length
      let intervals ←
        read_next_intervals decoder min_interval_length (number_of_intervals - 1) (start + delta)
      pure ((start, delta) :: intervals)
  else pure []

/-- The loop over the residuals after the first. -/
def read_next_residuals : ℕ → ℕ → StateT σ Option (List ℕ)
  | 0, _ => pure []
  | todo + 1, extra => do
    let gap ← decoder .residual
    let extra := extra + (1 + gap)
    let residuals ← read_next_residuals todo extra
    pure (extra :: residuals)

/-- The residuals, of which there are `nodes_left_to_decode`. -/
def read_residuals (node_id nodes_left_to_decode : ℕ) : StateT σ Option (List ℕ) :=
  if nodes_left_to_decode = 0 then pure []
  else do
    let offset ← decoder .first_residual
    let extra := offset_node node_id (dsi.to_int offset)
    let residuals ← read_next_residuals decoder (nodes_left_to_decode - 1) extra
    pure (extra :: residuals)

/-- `get_successors_iter_priv`. -/
def get_successors_iter_priv (compression_window min_interval_length : ℕ)
    (backrefs : CircularBuffer (List ℕ)) (node_id : ℕ) : StateT σ Option (List ℕ) := do
  let degree ← decoder .outdegree
  if degree = 0 then pure []
  else
    let copied ← read_reference decoder compression_window backrefs node_id
    let nodes_left_to_decode ← StateT.lift (checked_sub degree copied.length)
    let intervals ←
      read_intervals dsi decoder min_interval_length node_id nodes_left_to_decode
    let results := copied ++ intervals.flatMap fun p => List.range' p.1 p.2
    let nodes_left_to_decode ← StateT.lift (checked_sub degree results.length)
    let residuals ← read_residuals dsi decoder node_id nodes_left_to_decode
    pure ((results ++ residuals).insertionSort (· ≤ ·))

/-- `Iter`. -/
structure Iter (σ : Type) where
  number_of_nodes : ℕ
  compression_window : ℕ
  min_interval_length : ℕ
  decoder : σ
  backrefs : CircularBuffer (List ℕ)
  current_node : ℕ

/-- `Iter::new`. -/
def Iter.new (decoder : σ) (number_of_nodes compression_window min_interval_length : ℕ) :
    Iter σ where
  number_of_nodes := number_of_nodes
  compression_window := compression_window
  min_interval_length := min_interval_length
  decoder := decoder
  backrefs := .new compression_window []
  current_node := 0

/-- `Iter::next`. -/
def Iter.next (it : Iter σ) : Option (Option (ℕ × List ℕ) × Iter σ) :=
  if it.number_of_nodes ≤ it.current_node then some (none, it)
  else do
    -- the list of the node itself has been taken out of the buffer
    let backrefs := it.backrefs.replace it.current_node []
    let (res, d) ← get_successors_iter_priv dsi decoder it.compression_window
      it.min_interval_length backrefs it.current_node it.decoder
    some (some (it.current_node, res),
      { it with
        decoder := d
        backrefs := backrefs.replace it.current_node res
        current_node := it.current_node + 1 })

end

end Rbsc.BvGraph
