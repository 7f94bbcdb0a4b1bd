import Rbsc.Gpu.Window

/-!
# `rbsc`: the host

The `main` of `rbsc.cu` and `rbsc_aggressive.cu` with one worker: the windows that the batches of a
round cut out of the edge arrays, the labels that the refined windows hand out, the quotient that is
built in place, and the loop over the rounds.

* The three edge arrays are one array of `Edge`; between the rounds it is the list of its first
  `edge_n` entries.  `NOT_INIT` is `none`.
* `SumsOf` says which sums the passes of a batch see; the program's are `device_sums`.
* `extra` is the conjunct that the loop condition of `rbsc_aggressive` has in addition.
-/

namespace Rbsc.Host

open Arrays DoWhile Gpu

/-! ## The window of a batch -/

/-- The variables of the scan of a raw range. -/
structure Scan where
  new_batch_start : Option ℕ
  new_batch_end : Option ℕ
  batch_mask : Arr Mask

/-- The body of the scan. -/
def scan_step (edges : List Edge) (s : Scan) (i : ℕ) : Scan :=
  let new_batch_start :=
    if (i = 0 ∨ startAt edges (i - 1) ≠ startAt edges i) ∧ s.new_batch_start = none then some i
    else s.new_batch_start
  let new_batch_end :=
    if i ≠ 0 ∧ new_batch_start ≠ none ∧ startAt edges (i - 1) ≠ startAt edges i then some i
    else s.new_batch_end
  { new_batch_start := new_batch_start
    new_batch_end := new_batch_end
    batch_mask := s.batch_mask.set (startAt edges i) .IN_BATCH }

/-- The scan of `[batch_start, batch_end)`, from an empty window and the first mask of the batch. -/
def scan (node_n : ℕ) (edges : List Edge) (batch batch_start batch_end : ℕ) : Scan :=
  (List.range' batch_start (batch_end - batch_start)).foldl (scan_step edges)
    { new_batch_start := none
      new_batch_end := none
      batch_mask :=
        fill node_n (fun _ => if batch = 0 then .DANGLING else .OFF_BATCH) (.const .OFF_BATCH) }

/-- `for i in [lo, hi) do current_batch_mask[edge_start[i]] = OFF_BATCH`. -/
def mark_off (edges : List Edge) (lo hi : ℕ) (batch_mask : Arr Mask) : Arr Mask :=
  (List.range' lo (hi - lo)).foldl (fun m i => m.set (startAt edges i) .OFF_BATCH) batch_mask

/-- What a batch that is not skipped starts its refinement with. -/
structure Window where
  batch_start : ℕ
  batch_end : ℕ
  batch_mask : Arr Mask
  off_batch_node_n : ℕ

/-- The window of a batch, `none` when the batch is skipped. -/
def select_window (max_batch_edge_n node_n : ℕ) (edges : List Edge) (batch : ℕ) : Option Window :=
  let edge_n := edges.length
  let batch_start := batch * max_batch_edge_n
  let batch_end := min edge_n (batch_start + max_batch_edge_n)
  let s := scan node_n edges batch batch_start batch_end
  let new_batch_end :=
    if batch_end = edge_n ∨ startAt edges batch_end ≠ startAt edges (batch_end - 1) then
      some batch_end
    else s.new_batch_end
  match s.new_batch_start, new_batch_end with
  | some batch_start, some batch_end =>
    let batch_mask := mark_off edges batch_end edge_n (mark_off edges 0 batch_start s.batch_mask)
    let batch_node_n := (List.range node_n).countP fun i => batch_mask i ≠ .OFF_BATCH
    some
      { batch_start := batch_start
        batch_end := batch_end
        batch_mask := batch_mask
        off_batch_node_n := node_n - batch_node_n }
  | _, _ => none

/-- The edges that are copied to the device. -/
def slice (edges : List Edge) (batch_start batch_end : ℕ) : List Edge :=
  (edges.drop batch_start).take (batch_end - batch_start)

/-! ## The labels of a batch -/

/-- The variables of the loop that hands out labels. -/
structure Labels where
  w : Arr ℕ
  new_node_n : ℕ
  label_map : Arr ℕ

/-- The body of the loop: a node of the batch gets the label of its local label, a new one if the
local label has none. -/
def label_step (node_n : ℕ) (batch_mask : Arr Mask) (batch_partition : Arr Word) (s : Labels)
    (i : ℕ) : Labels :=
  if batch_mask i = .OFF_BATCH then s
  else
    let local_label := nodeT (batch_partition i).toNat
    if s.label_map local_label = node_n then
      { w := s.w.set i s.new_node_n
        new_node_n := nodeT (s.new_node_n + 1)
        label_map := s.label_map.set local_label s.new_node_n }
    else { s with w := s.w.set i (s.label_map local_label) }

/-- `current_label_map` before the loop. -/
def label_map_init (node_n : ℕ) : Arr ℕ := fill node_n (fun _ => node_n) (.const node_n)

/-- The loop. -/
def label_loop (node_n : ℕ) (batch_mask : Arr Mask) (batch_partition : Arr Word) (s : Labels) :
    Labels :=
  (List.range node_n).foldl (label_step node_n batch_mask batch_partition)
    { s with label_map := label_map_init node_n }

/-! ## A round -/

/-- The sums that the passes of a batch see, by the node count of the round, the batch, its window
and the number of sources of the window. -/
abbrev SumsOf := ℕ → ℕ → List Edge → ℕ → Sums

/-- The sums of the program. -/
def device_sums (cub : Cub) : SumsOf := fun _ _ window unique_node_count =>
  window_sums cub window unique_node_count

/-- The variables that the batches of a round change. -/
structure Batches where
  w : Arr ℕ
  new_node_n : ℕ
  dev : Device

/-- One batch. -/
def run_batch (cub : Cub) (sums : SumsOf) (max_batch_edge_n node_n : ℕ) (edges : List Edge)
    (fuel : ℕ) (s : Batches) (batch : ℕ) : Option Batches :=
  match select_window max_batch_edge_n node_n edges batch with
  | none => some s
  | some win =>
    let window := slice edges win.batch_start win.batch_end
    (refine_loop cub (sums node_n batch window (unique_count window)) node_n win.batch_mask
      win.off_batch_node_n fuel s.dev).map fun r =>
        let l := label_loop node_n win.batch_mask r.dev.d_w
          { w := s.w, new_node_n := s.new_node_n, label_map := .const 0 }
        { w := l.w, new_node_n := l.new_node_n, dev := r.dev }

/-- The first batches of a round, with one worker. -/
def run_batches (cub : Cub) (sums : SumsOf) (max_batch_edge_n node_n : ℕ) (edges : List Edge)
    (fuel batches : ℕ) (s : Batches) : Option Batches :=
  (List.range batches).foldlM (run_batch cub sums max_batch_edge_n node_n edges fuel) s

/-- `ceil((double)edge_n / max_batch_edge_n)`, read exactly. -/
def batch_count (edge_n max_batch_edge_n : ℕ) : ℕ :=
  (edge_n + (max_batch_edge_n - 1)) / max_batch_edge_n

/-! ## The quotient -/

/-- `w` and `new_node_n`. -/
structure Names where
  w : Arr ℕ
  new_node_n : ℕ

/-- The body of the fill-in: a node that no batch has labelled gets a label of its own. -/
def fill_in_step (node_n : ℕ) (s : Names) (i : ℕ) : Names :=
  if s.w i = node_n then { w := s.w.set i s.new_node_n, new_node_n := nodeT (s.new_node_n + 1) }
  else s

/-- The fill-in. -/
def fill_in (node_n : ℕ) (s : Names) : Names :=
  (List.range node_n).foldl (fill_in_step node_n) s

/-- The variables of the compaction loop. -/
structure Compact where
  edges : Arr Edge
  considered_nodes : Arr Bool
  weight_indexes : Arr ℕ
  new_edge_n : ℕ
  first_edge_i : ℕ
  current_node : ℕ
  counting : Bool

/-- The start of a group of edges. -/
def group_step (w : Arr ℕ) (s : Compact) (i : ℕ) : Compact :=
  let current_node := (s.edges i).edge_start
  if i = 0 ∨ current_node ≠ s.current_node then
    { s with
      current_node := current_node
      counting := !s.considered_nodes (w current_node)
      first_edge_i := s.new_edge_n
      considered_nodes := s.considered_nodes.set (w current_node) true }
  else s

/-- An edge of a group that counts, with its ends renamed: it is written at `new_edge_n`, or its
weight is added to the entry of the group with the same end. -/
def put_edge (edge_n : ℕ) (s : Compact) (i : ℕ) (e : Edge) : Compact :=
  let edges := s.edges.set i e
  let k := s.weight_indexes e.edge_end
  if k = edge_n ∨ k < s.first_edge_i then
    { s with
      edges := edges.set s.new_edge_n e
      weight_indexes := s.weight_indexes.set e.edge_end s.new_edge_n
      new_edge_n := s.new_edge_n + 1 }
  else
    { s with
      edges := edges.set k
        { edges k with edge_weight := ((edges k).edge_weight + e.edge_weight) % 2 ^ 64 } }

/-- The body of the compaction loop. -/
def compact_step (edge_n : ℕ) (w : Arr ℕ) (s : Compact) (i : ℕ) : Compact :=
  let s := group_step w s i
  if s.counting then
    let e := s.edges i
    put_edge edge_n s i { e with edge_start := w e.edge_start, edge_end := w e.edge_end }
  else s

/-- The arrays before the compaction loop; `current_node`, `first_edge_i` and `counting` are set in
its first turn. -/
def compact_init (node_n : ℕ) (edges : List Edge) : Compact where
  edges := ⟨edgeAt edges⟩
  considered_nodes := fill node_n (fun _ => false) (.const false)
  weight_indexes := fill node_n (fun _ => edges.length) (.const edges.length)
  new_edge_n := 0
  first_edge_i := 0
  current_node := 0
  counting := false

/-- The compaction loop, up to edge `m`. -/
def compact_loop (node_n : ℕ) (w : Arr ℕ) (edges : List Edge) (m : ℕ) : Compact :=
  (List.range m).foldl (compact_step edges.length w) (compact_init node_n edges)

/-- The edges after the compaction. -/
def compact (node_n : ℕ) (w : Arr ℕ) (edges : List Edge) : List Edge :=
  let s := compact_loop node_n w edges edges.length
  toList s.new_edge_n s.edges

/-! ## The loop over the rounds -/

/-- The variables of the loop; `edges` are the first `new_edge_n` entries of the edge arrays. -/
structure State where
  node_n : ℕ
  new_node_n : ℕ
  edges : List Edge
  batches : ℕ
  w : Arr ℕ
  dev : Device

/-- The variables before the batches of a round. -/
def batches_init (s : State) : Batches where
  w := fill s.new_node_n (fun _ => s.new_node_n) s.w
  new_node_n := 0
  dev := s.dev

/-- One round. -/
def round (cub : Cub) (sums : SumsOf) (max_batch_edge_n fuel : ℕ) (s : State) : Option State :=
  let node_n := s.new_node_n
  let batches := batch_count s.edges.length max_batch_edge_n
  (run_batches cub sums max_batch_edge_n node_n s.edges fuel batches (batches_init s)).map fun r =>
    if batches > 1 then
      let names := fill_in node_n { w := r.w, new_node_n := r.new_node_n }
      { node_n := node_n
        new_node_n := names.new_node_n
        edges := compact node_n names.w s.edges
        batches := batches
        w := names.w
        dev := r.dev }
    else
      { node_n := node_n
        new_node_n := r.new_node_n
        edges := s.edges
        batches := batches
        w := r.w
        dev := r.dev }

/-- The loop condition; `extra` is a conjunct on `batches` and `new_edge_n`. -/
def again (extra : ℕ → ℕ → Bool) (s : State) : Bool :=
  s.batches > 1 && extra s.batches s.edges.length && s.node_n > s.new_node_n

/-- `rbsc` has no other conjunct. -/
def rbsc_extra : ℕ → ℕ → Bool := fun _ _ => true

/-- The conjunct of `rbsc_aggressive`, read exactly. -/
def aggressive_extra (max_batch_edge_n : ℕ) : ℕ → ℕ → Bool := fun batches new_edge_n =>
  batches > batch_count new_edge_n max_batch_edge_n

/-- The variables before the loop. -/
def init (g : Graph) (dev : Device) : State where
  node_n := g.node_n
  new_node_n := g.node_n
  edges := g.edges
  batches := 0
  w := .const 0
  dev := dev

/-- The loop of `main` with one worker, given up after `fuel` rounds. -/
def rbsc (cub : Cub) (sums : SumsOf) (extra : ℕ → ℕ → Bool) (max_batch_edge_n : ℕ) (g : Graph)
    (dev : Device) (fuel : ℕ) : Option State :=
  doWhile (round cub sums max_batch_edge_n fuel) (again extra) fuel (init g dev)

/-- The flag that is printed after the time. -/
def done (s : State) : ℕ := if s.batches = 1 then 1 else 0

/-- The state at the start of round `k`. -/
def AtRound (cub : Cub) (sums : SumsOf) (extra : ℕ → ℕ → Bool) (max_batch_edge_n : ℕ) (g : Graph)
    (dev : Device) (k : ℕ) (s : State) : Prop :=
  ∃ fuel, Entered (round cub sums max_batch_edge_n fuel) (again extra) (init g dev) k s

end Rbsc.Host
