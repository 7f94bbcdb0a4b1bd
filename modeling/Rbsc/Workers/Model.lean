import Rbsc.Host.Window
import Rbsc.Lib.Interleave

/-!
# The parallel loop over the batches

The statements with which a worker of the parallel region selects the window of a batch, one by one.
A worker has a copy of every variable that the `private` clause names; `new_batch_start`,
`new_batch_end` and `off_batch_node_n` are declared before the region and not named there, so there
is one of each (`Shared`).

* `Line`: the statements, in the order of the source; the refinement and the labelling of the batch,
  which use none of the shared three, are the last one;
* `exec`: one statement of one worker; a loop makes one turn, or leaves;
* `Started`: a worker that has taken its batches, and nothing else;
* `OwnBatch`: what a worker goes on with is what `select_window` says for its batch.
-/

namespace Rbsc.Workers

open Arrays Gpu Host Interleave

/-- The statements of the loop over the batches. -/
inductive Line
  | next
  | batch_start
  | batch_end
  | batch_node_n
  | mask_init
  | start_not_init
  | end_not_init
  | scan_start
  | scan_end
  | scan_mask
  | last_end
  | commit_start
  | commit_end
  | skip
  | batch_edge_n
  | off_before
  | off_after
  | count
  | off_batch
  | z_unique
  | refine
deriving DecidableEq, Repr

/-- What a round does not change. -/
structure Env where
  max_batch_edge_n : ℕ
  node_n : ℕ
  edges : List Edge

/-- The variables of which there is one for all workers. -/
structure Shared where
  new_batch_start : Option ℕ
  new_batch_end : Option ℕ
  off_batch_node_n : ℕ

/-- A worker: where it is, the batches that are left to it, and its private variables.
`current_batch_mask` stands for the part of `batch_mask` that it points to. -/
structure Worker where
  line : Line
  todo : List ℕ
  batch : ℕ
  batch_start : Option ℕ
  batch_end : Option ℕ
  batch_node_n : ℕ
  batch_edge_n : ℕ
  i : ℕ
  current_batch_mask : Arr Mask
  z_unique_n : ℕ
  new_z_unique_n : ℕ

/-- A `uint64_t` that may be `NOT_INIT`. -/
def u64 (x : Option ℕ) : ℕ := x.getD (2 ^ 64 - 1)

@[simp] theorem u64_some (x : ℕ) : u64 (some x) = x := rfl

/-- One statement of a worker. -/
def exec (c : Env) (s : Shared) (w : Worker) : Shared × Worker :=
  match w.line with
  | .next =>
    match w.todo with
    | [] => (s, w)
    | batch :: todo => (s, { w with line := .batch_start, todo := todo, batch := batch })
  | .batch_start =>
    (s, { w with line := .batch_end, batch_start := some (w.batch * c.max_batch_edge_n) })
  | .batch_end =>
    (s, { w with
      line := .batch_node_n
      batch_end := some (min c.edges.length (u64 w.batch_start + c.max_batch_edge_n)) })
  | .batch_node_n => (s, { w with line := .mask_init, batch_node_n := 0, i := 0 })
  | .mask_init =>
    if w.i < c.node_n then
      (s, { w with
        current_batch_mask :=
          w.current_batch_mask.set w.i (if w.batch = 0 then .DANGLING else .OFF_BATCH)
        i := w.i + 1 })
    else (s, { w with line := .start_not_init })
  | .start_not_init => ({ s with new_batch_start := none }, { w with line := .end_not_init })
  | .end_not_init =>
    ({ s with new_batch_end := none }, { w with line := .scan_start, i := u64 w.batch_start })
  | .scan_start =>
    if w.i < u64 w.batch_end then
      ({ s with
        new_batch_start :=
          if (w.i = 0 ∨ startAt c.edges (w.i - 1) ≠ startAt c.edges w.i) ∧
              s.new_batch_start = none then
            some w.i
          else s.new_batch_start }, { w with line := .scan_end })
    else (s, { w with line := .last_end })
  | .scan_end =>
    ({ s with
      new_batch_end :=
        if w.i ≠ 0 ∧ s.new_batch_start ≠ none ∧ startAt c.edges (w.i - 1) ≠ startAt c.edges w.i then
          some w.i
        else s.new_batch_end }, { w with line := .scan_mask })
  | .scan_mask =>
    (s, { w with
      line := .scan_start
      current_batch_mask := w.current_batch_mask.set (startAt c.edges w.i) .IN_BATCH
      i := w.i + 1 })
  | .last_end =>
    let batch_end := u64 w.batch_end
    ({ s with
      new_batch_end :=
        if batch_end = c.edges.length ∨
            startAt c.edges batch_end ≠ startAt c.edges (batch_end - 1) then
          some batch_end
        else s.new_batch_end }, { w with line := .commit_start })
  | .commit_start => (s, { w with line := .commit_end, batch_start := s.new_batch_start })
  | .commit_end => (s, { w with line := .skip, batch_end := s.new_batch_end })
  | .skip =>
    if w.batch_start = none ∨ w.batch_end = none then (s, { w with line := .next })
    else (s, { w with line := .batch_edge_n })
  | .batch_edge_n =>
    (s, { w with
      line := .off_before
      batch_edge_n := (u64 w.batch_end + (2 ^ 64 - u64 w.batch_start)) % 2 ^ 64
      i := 0 })
  | .off_before =>
    if w.i < u64 w.batch_start then
      (s, { w with
        current_batch_mask := w.current_batch_mask.set (startAt c.edges w.i) .OFF_BATCH
        i := w.i + 1 })
    else (s, { w with line := .off_after, i := u64 w.batch_end })
  | .off_after =>
    if w.i < c.edges.length then
      (s, { w with
        current_batch_mask := w.current_batch_mask.set (startAt c.edges w.i) .OFF_BATCH
        i := w.i + 1 })
    else (s, { w with line := .count, i := 0 })
  | .count =>
    if w.i < c.node_n then
      (s, { w with
        batch_node_n :=
          if w.current_batch_mask w.i ≠ .OFF_BATCH then w.batch_node_n + 1 else w.batch_node_n
        i := w.i + 1 })
    else (s, { w with line := .off_batch })
  | .off_batch =>
    ({ s with off_batch_node_n := c.node_n - w.batch_node_n }, { w with line := .z_unique })
  | .z_unique =>
    (s, { w with
      line := .refine
      z_unique_n := nodeT (s.off_batch_node_n + 1)
      new_z_unique_n := nodeT (s.off_batch_node_n + 1) })
  | .refine => (s, { w with line := .next })

/-- A worker that has not begun.  Its variables hold anything. -/
structure Started (w : Worker) (todo : List ℕ) : Prop where
  line : w.line = .next
  todo : w.todo = todo

/-- The batches of worker `p`, in their order. -/
def batchesOf {max_gpus : ℕ} (owner : ℕ → Fin max_gpus) (batches : ℕ) (p : Fin max_gpus) : List ℕ :=
  (List.range batches).filter fun k => owner k = p

/-- The start of the parallel region. -/
def Start {max_gpus : ℕ} (owner : ℕ → Fin max_gpus) (batches : ℕ)
    (cfg : Config (Fin max_gpus) Shared Worker) : Prop :=
  ∀ p, Started (cfg.own p) (batchesOf owner batches p)

/-- The window that a worker has read, at the test that skips a batch. -/
def committed (w : Worker) : Option (ℕ × ℕ) :=
  match w.batch_start, w.batch_end with
  | some batch_start, some batch_end => some (batch_start, batch_end)
  | _, _ => none

/-- What the worker goes on with is determined by its batch. -/
structure OwnBatch (c : Env) (w : Worker) : Prop where
  /-- It skips the batch, or commits its window. -/
  window : w.line = .skip →
    committed w = (select_window c.max_batch_edge_n c.node_n c.edges w.batch).map
      fun win => (win.batch_start, win.batch_end)
  /-- It starts the refinement with the window, its mask and its count. -/
  refine : w.line = .refine →
    ∃ win, select_window c.max_batch_edge_n c.node_n c.edges w.batch = some win ∧
      w.batch_start = some win.batch_start ∧ w.batch_end = some win.batch_end ∧
      (∀ v < c.node_n, w.current_batch_mask v = win.batch_mask v) ∧
      w.z_unique_n = nodeT (win.off_batch_node_n + 1) ∧
      w.new_z_unique_n = nodeT (win.off_batch_node_n + 1)

/-! ## Progress -/

/-- How far a worker is from the end of its batch: the statement, and the turns of the loop that are
left. -/
def distance (c : Env) (w : Worker) : ℕ ×ₗ ℕ :=
  match w.line with
  | .next => toLex (0, 0)
  | .batch_start => toLex (18, 0)
  | .batch_end => toLex (17, 0)
  | .batch_node_n => toLex (16, 0)
  | .mask_init => toLex (15, c.node_n - w.i)
  | .start_not_init => toLex (14, 0)
  | .end_not_init => toLex (13, 0)
  | .scan_start => toLex (12, 3 * (u64 w.batch_end - w.i))
  | .scan_end => toLex (12, 3 * (u64 w.batch_end - (w.i + 1)) + 2)
  | .scan_mask => toLex (12, 3 * (u64 w.batch_end - (w.i + 1)) + 1)
  | .last_end => toLex (11, 0)
  | .commit_start => toLex (10, 0)
  | .commit_end => toLex (9, 0)
  | .skip => toLex (8, 0)
  | .batch_edge_n => toLex (7, 0)
  | .off_before => toLex (6, u64 w.batch_start - w.i)
  | .off_after => toLex (5, c.edges.length - w.i)
  | .count => toLex (4, c.node_n - w.i)
  | .off_batch => toLex (3, 0)
  | .z_unique => toLex (2, 0)
  | .refine => toLex (1, 0)

/-- Every statement but the first brings the worker nearer to the end of its batch. -/
theorem distance_exec (c : Env) (s : Shared) (w : Worker) (h : w.line ≠ .next) :
    distance c (exec c s w).2 < distance c w := by
  obtain ⟨line, todo, batch, bs, be, bnn, ben, i, mask, z, nz⟩ := w
  unfold exec distance
  cases line with
  | next => exact absurd rfl h
  | mask_init | scan_start | skip | off_before | off_after | count =>
    dsimp only
    split_ifs <;> rw [Prod.Lex.toLex_lt_toLex] <;> dsimp only <;> omega
  | _ =>
    rw [Prod.Lex.toLex_lt_toLex]
    dsimp only
    omega

end Rbsc.Workers
