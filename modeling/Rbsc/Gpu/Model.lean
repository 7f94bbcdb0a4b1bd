import Rbsc.Graph
import Rbsc.Lib.Loop
import Rbsc.Lib.Arrays
import Rbsc.Lib.StableSort
import Rbsc.Lib.Runs

/-!
# `rbsc`: the device

The kernels of `rbsc.cu`, the calls of cub between them, and the refinement of one window on one
device.  cub is not part of the repository: it is the parameter `Cub`, with its specification.

* A launch of `blocks` blocks runs the thread ids below `blocks * THREAD_N`; those that pass the
  kernel's guard are `threads blocks n`, none for a launch with zero blocks.  The grid of a node
  kernel is computed in `node_t`, that of an edge kernel in `uint64_t`.
* `Device` holds the buffers of one device.  `d_computed_values` and `d_sorted_z` are one buffer,
  `d_buffer`; their contents before the first launch are whatever the allocation holds.
* `Sums` is the part of a pass that leaves the per-node sums in `d_sorted_z`; the program's is
  `window_sums`.
-/

namespace Rbsc.Gpu

open Arrays DoWhile StableSort Runs

/-! ## cub -/

/-- The four calls of cub, with their specification.  `sortPairs` takes the number of key bits that
are compared, from bit `0`. -/
structure Cub where
  reduceByKey : List (ℕ × Word) → List (ℕ × Word)
  sortPairs : ℕ → List (Word × ℕ) → List (Word × ℕ)
  sortKeys : List Word → List Word
  inclusiveSum : List ℕ → List ℕ
  /-- `DeviceReduce::ReduceByKey`: one pair a run of equal keys. -/
  reduceByKey_eq : ∀ l, reduceByKey l = runSums l
  /-- `DeviceRadixSort::SortPairs` is stable. -/
  sortPairs_stable : ∀ bits l,
    IsStableSort (fun p : Word × ℕ => p.1.toNat % 2 ^ bits) l (sortPairs bits l)
  sortKeys_perm : ∀ l, (sortKeys l).Perm l
  sortKeys_sorted : ∀ l, (sortKeys l).Pairwise fun a b => a.toNat ≤ b.toNat
  /-- `DeviceScan::InclusiveSum` of `node_t`. -/
  inclusiveSum_eq : ∀ l, inclusiveSum l =
    (List.range l.length).map fun i => nodeT (l.take (i + 1)).sum

/-- A cub: the specification itself, with insertion sorts. -/
def Cub.reference : Cub where
  reduceByKey := runSums
  sortPairs bits l := l.insertionSort fun p q => p.1.toNat % 2 ^ bits ≤ q.1.toNat % 2 ^ bits
  sortKeys l := l.insertionSort fun a b => a.toNat ≤ b.toNat
  inclusiveSum l := (List.range l.length).map fun i => nodeT (l.take (i + 1)).sum
  reduceByKey_eq _ := rfl
  sortPairs_stable bits l := isStableSort_insertionSort (fun p => p.1.toNat % 2 ^ bits) l
  sortKeys_perm l := (isStableSort_insertionSort BitVec.toNat l).perm
  sortKeys_sorted l := (isStableSort_insertionSort BitVec.toNat l).sorted
  inclusiveSum_eq _ := rfl

/-! ## Launches -/

/-- `THREAD_N`. -/
def THREAD_N : ℕ := 256

/-- `(node_n + (THREAD_N - 1)) / THREAD_N`, in `node_t`. -/
def node_grid (node_n : ℕ) : ℕ := nodeT (node_n + (THREAD_N - 1)) / THREAD_N

/-- `(edge_n + (THREAD_N - 1)) / THREAD_N`, in `uint64_t`. -/
def edge_grid (edge_n : ℕ) : ℕ := (edge_n + (THREAD_N - 1)) / THREAD_N

/-- The thread ids of a launch that pass the guard `i < n`. -/
def threads (blocks n : ℕ) : ℕ := min n (blocks * THREAD_N)

/-! ## The kernels -/

/-- The values of `batch_mask`. -/
inductive Mask
  | OFF_BATCH
  | IN_BATCH
  | DANGLING
deriving DecidableEq, Repr

/-- `init_partition`. -/
def init_partition (blocks node_n : ℕ) (batch_mask : Arr Mask) (z : Arr Word) : Arr Word :=
  fill (threads blocks node_n) (fun i =>
    match batch_mask i with
    | .IN_BATCH => (nodeT (node_n + 1) : Word)
    | .DANGLING => 0
    | .OFF_BATCH => (nodeT (i + 1) : Word)) z

/-- `randomize_w`. -/
def randomize_w (blocks : ℕ) (z w : Arr Word) (it : Word) (node_n : ℕ) : Arr Word :=
  fill (threads blocks node_n) (fun i => randomize (z i + it)) w

/-- `set_values`. -/
def set_values (blocks edge_n : ℕ) (edges : List Edge) (values w : Arr Word) (it : Word) :
    Arr Word :=
  fill (threads blocks edge_n) (fun i =>
    randomize (w (edgeAt edges i).edge_end + it) * ((edgeAt edges i).edge_weight : Word)) values

/-- `count_unique_elements`: the `atomicAdd`s of all threads. -/
def count_unique_elements {α : Type} [DecidableEq α] (blocks n count : ℕ) (v : ℕ → α) : ℕ :=
  nodeT (count + (List.range (threads blocks n)).countP fun i => i = 0 ∨ v i ≠ v (i - 1))

/-- `create_index`. -/
def create_index (blocks : ℕ) (indexes : Arr ℕ) (node_n : ℕ) : Arr ℕ :=
  fill (threads blocks node_n) id indexes

/-- `mend_partition`. -/
def mend_partition (blocks : ℕ) (z sorted_z : Arr Word) (batch_mask : Arr Mask) (node_n : ℕ) :
    Arr Word :=
  fill (threads blocks node_n) (fun i =>
    match batch_mask i with
    | .OFF_BATCH => BitVec.allOnes 64
    | .DANGLING => 0
    | .IN_BATCH => sorted_z i) z

/-- `compute_thruths_lex`. -/
def compute_thruths_lex (blocks : ℕ) (z w : Arr Word) (indexes truths : Arr ℕ) (node_n : ℕ) :
    Arr ℕ :=
  fill (threads blocks node_n) (fun i =>
    if i ≠ 0 ∧ (z (i - 1) ≠ z i ∨ w (indexes (i - 1)) ≠ w (indexes i)) then 1 else 0) truths

/-- `reorder`. -/
def reorder (blocks : ℕ) (indexes : Arr ℕ) (shuffled : ℕ → Word) (z : Arr Word) (node_n : ℕ) :
    Arr Word := scatter (threads blocks node_n) indexes shuffled z

/-- `gather`. -/
def gather (blocks : ℕ) (indexes : Arr ℕ) (shuffled z : Arr Word) (node_n : ℕ) : Arr Word :=
  fill (threads blocks node_n) (fun i => shuffled (indexes i)) z

/-! ## One pass -/

/-- The buffers of one device. -/
structure Device where
  d_w : Arr Word
  d_z : Arr Word
  d_buffer : Arr Word
  d_indexes : Arr ℕ
  d_sorted_indexes : Arr ℕ
  d_truths : Arr ℕ
  d_cumsum : Arr ℕ

/-- The part of a pass that leaves the per-node sums in `d_sorted_z`, for the current `it`.  It
does not write the labels and the truths. -/
structure Sums where
  run : Word → Device → Device
  keeps : ∀ it d, (run it d).d_w = d.d_w
  keeps_truths : ∀ it d, (run it d).d_truths = d.d_truths

instance : CoeFun Sums fun _ => Word → Device → Device := ⟨Sums.run⟩

/-- `set_values`, `ReduceByKey` and the first `reorder` of a pass, for the window's edges. -/
def window_sums (cub : Cub) (window : List Edge) (unique_node_count : ℕ) : Sums where
  run it d :=
    let batch_edge_n := window.length
    let d_computed_values :=
      set_values (edge_grid batch_edge_n) batch_edge_n window d.d_buffer d.d_w it
    let runs := cub.reduceByKey
      ((List.range batch_edge_n).map fun i => (startAt window i, d_computed_values i))
    let d_indexes := store (runs.map Prod.fst) d.d_indexes
    let d_z := store (runs.map Prod.snd) d.d_z
    { d with
      d_buffer :=
        reorder (node_grid unique_node_count) d_indexes d_z d_computed_values unique_node_count
      d_z := d_z
      d_indexes := d_indexes }
  keeps _ _ := rfl
  keeps_truths _ _ := rfl

/-- The pass from `mend_partition` to the second `reorder`. -/
def classify (cub : Cub) (node_n : ℕ) (batch_mask : Arr Mask) (d : Device) : Device :=
  let grid := node_grid node_n
  let d_z := mend_partition grid d.d_z d.d_buffer batch_mask node_n
  let d_indexes := create_index grid d.d_indexes node_n
  let pairs := cub.sortPairs 32 ((List.range node_n).map fun i => (d.d_w i, d_indexes i))
  let d_buffer := store (pairs.map Prod.fst) d.d_buffer
  let d_sorted_indexes := store (pairs.map Prod.snd) d.d_sorted_indexes
  let d_buffer := gather grid d_sorted_indexes d_z d_buffer node_n
  let pairs := cub.sortPairs 64
    ((List.range node_n).map fun i => (d_buffer i, d_sorted_indexes i))
  let d_z := store (pairs.map Prod.fst) d_z
  let d_indexes := store (pairs.map Prod.snd) d_indexes
  let d_truths := compute_thruths_lex grid d_z d.d_w d_indexes d.d_truths node_n
  let d_cumsum := store (cub.inclusiveSum (toList node_n d_truths)) d.d_cumsum
  { d_w := d.d_w
    d_z := reorder grid d_indexes (fun i => (d_cumsum i : Word)) d_z node_n
    d_buffer := d_buffer
    d_indexes := d_indexes
    d_sorted_indexes := d_sorted_indexes
    d_truths := d_truths
    d_cumsum := d_cumsum }

/-- The variables of the retry loop. -/
structure Retry where
  dev : Device
  it : Word
  w_unique_n : ℕ

/-- The body of the retry loop: the labels in `d_z` are hashed into `d_w` and the distinct hashes
counted. -/
def retry_body (cub : Cub) (node_n : ℕ) (r : Retry) : Option Retry :=
  let it := r.it + 1
  let d_w := randomize_w (node_grid node_n) r.dev.d_z r.dev.d_w it node_n
  let d_sorted_z := store (cub.sortKeys (toList node_n d_w)) r.dev.d_buffer
  some { dev := { r.dev with d_w := d_w, d_buffer := d_sorted_z }
         it := it
         w_unique_n := count_unique_elements (node_grid node_n) node_n 0 d_sorted_z }

/-- The retry loop. -/
def retry (cub : Cub) (node_n new_z_unique_n fuel : ℕ) (r : Retry) : Option Retry :=
  doWhile (retry_body cub node_n) (fun r => new_z_unique_n ≠ r.w_unique_n) fuel r

/-- The variables of the refinement loop. -/
structure Refine where
  dev : Device
  it : Word
  z_unique_n : ℕ
  new_z_unique_n : ℕ

/-- One pass of the refinement loop. -/
def pass (cub : Cub) (sums : Sums) (node_n : ℕ) (batch_mask : Arr Mask) (fuel : ℕ) (r : Refine) :
    Option Refine :=
  let d := classify cub node_n batch_mask (sums r.it r.dev)
  let new_z_unique_n := nodeT (d.d_cumsum (node_n - 1) + 1)
  (retry cub node_n new_z_unique_n fuel { dev := d, it := r.it, w_unique_n := 0 }).map fun t =>
    { dev := { t.dev with d_w := t.dev.d_z, d_z := t.dev.d_w }
      it := t.it
      z_unique_n := r.new_z_unique_n
      new_z_unique_n := new_z_unique_n }

/-- The condition of the refinement loop. -/
def refine_again (r : Refine) : Bool := r.z_unique_n ≠ r.new_z_unique_n

/-- The variables before the refinement loop. -/
def refine_init (node_n : ℕ) (batch_mask : Arr Mask) (off_batch_node_n : ℕ) (d : Device) :
    Refine where
  dev := { d with d_w := init_partition (node_grid node_n) node_n batch_mask d.d_w }
  it := 0
  z_unique_n := nodeT (off_batch_node_n + 1)
  new_z_unique_n := nodeT (off_batch_node_n + 1)

/-- The refinement of a window, given up after `fuel` passes. -/
def refine_loop (cub : Cub) (sums : Sums) (node_n : ℕ) (batch_mask : Arr Mask)
    (off_batch_node_n fuel : ℕ) (d : Device) : Option Refine :=
  doWhile (pass cub sums node_n batch_mask fuel) refine_again fuel
    (refine_init node_n batch_mask off_batch_node_n d)

end Rbsc.Gpu
