import Rbsc.Host.Lumping
import Rbsc.Workers.Model

/-!
# Rounds with several workers

The parallel region of a round when every worker has window variables of its own: an idle worker
takes any batch that is left, skips it, or refines its window on its own device; then it hands out
the labels, and only `new_node_n` and `w` are shared.  Between any two statements of one worker
there may be any number of the others.

* `Task`: what a worker holds between the refinement of its batch and the end of the batch;
* `Exec`: one move of a worker;
* `Round`: the parallel region, and the quotient that one thread builds after it;
* `Run`: the rounds of a run, with the composition of their labels;
* `Reached`: the same whatever collides, without the composition.
-/

namespace Rbsc.Workers

open Arrays DoWhile Gpu Host Interleave

/-! ## The parallel region -/

/-- The statements of the loop that hands out labels: the test of the mask, with the critical
section for a local label that has none, and the write to `w`. -/
inductive LabelLine
  | label
  | write
deriving DecidableEq, Repr

/-- A batch whose refinement has ended. -/
structure Task where
  batch : ℕ
  current_batch_mask : Arr Mask
  current_batch_partition : Arr Word
  current_label_map : Arr ℕ
  i : ℕ
  line : LabelLine

/-- The variables that the workers share, and the batches that no worker has taken. -/
structure Pool where
  w : Arr ℕ
  new_node_n : ℕ
  todo : Finset ℕ

/-- A worker: its device, and its batch. -/
structure Thread where
  dev : Device
  task : Option Task

/-- The batch at the end of its refinement. -/
def task_init (node_n batch : ℕ) (win : Window) (dev : Device) : Task where
  batch := batch
  current_batch_mask := win.batch_mask
  current_batch_partition := dev.d_w
  current_label_map := label_map_init node_n
  i := 0
  line := .label

/-- One statement of the loop that hands out labels; the worker is idle after the last. -/
def label_exec (node_n : ℕ) (s : Pool) (t : Task) : Pool × Option Task :=
  let local_label := nodeT (t.current_batch_partition t.i).toNat
  match t.line with
  | .label =>
    if t.i < node_n then
      if t.current_batch_mask t.i = .OFF_BATCH then (s, some { t with i := t.i + 1 })
      else if t.current_label_map local_label = node_n then
        -- the critical section
        ({ s with new_node_n := nodeT (s.new_node_n + 1) }, some { t with
          current_label_map := t.current_label_map.set local_label s.new_node_n
          line := .write })
      else (s, some { t with line := .write })
    else (s, none)
  | .write =>
    ({ s with w := s.w.set t.i (t.current_label_map local_label) }, some { t with
      i := t.i + 1
      line := .label })

/-- One move of a worker.  Refinements start from devices in `Q`. -/
inductive Exec (cub : Cub) (sums : SumsOf) (Q : ℕ → Device → Prop) (c : Env) :
    Pool → Thread → Pool → Thread → Prop
  | skip {s : Pool} {d : Device} {k : ℕ} (hk : k ∈ s.todo)
      (hwin : windows c.max_batch_edge_n c.node_n c.edges k = none) :
      Exec cub sums Q c s ⟨d, none⟩ { s with todo := s.todo.erase k } ⟨d, none⟩
  | refine {s : Pool} {d : Device} {k fuel : ℕ} {win : Window} {r : Refine} (hk : k ∈ s.todo)
      (hwin : windows c.max_batch_edge_n c.node_n c.edges k = some win) (hQ : Q k d)
      (hr : refine_loop cub (batchSums sums c.node_n c.edges k win) c.node_n win.batch_mask
        win.off_batch_node_n fuel d = some r) :
      Exec cub sums Q c s ⟨d, none⟩ { s with todo := s.todo.erase k }
        ⟨r.dev, some (task_init c.node_n k win r.dev)⟩
  | label {s : Pool} {d : Device} {t : Task} :
      Exec cub sums Q c s ⟨d, some t⟩ (label_exec c.node_n s t).1 ⟨d, (label_exec c.node_n s t).2⟩

/-- The batches are done. -/
def Finished {max_gpus : ℕ} (cfg : Config (Fin max_gpus) Pool Thread) : Prop :=
  cfg.shared.todo = ∅ ∧ ∀ p, (cfg.own p).task = none

/-- More devices are allowed. -/
theorem Exec.mono {cub : Cub} {sums : SumsOf} {Q Q' : ℕ → Device → Prop} {c : Env} {s s' : Pool}
    {l l' : Thread} (hQ : ∀ k d, Q k d → Q' k d) (h : Exec cub sums Q c s l s' l') :
    Exec cub sums Q' c s l s' l' := by
  cases h with
  | skip hk hwin => exact .skip hk hwin
  | refine hk hwin hd hr => exact .refine hk hwin (hQ _ _ hd) hr
  | label => exact .label

/-! ## A round -/

/-- `Host.State`, with `max_gpus` devices. -/
structure State (max_gpus : ℕ) where
  node_n : ℕ
  new_node_n : ℕ
  edges : List Edge
  batches : ℕ
  w : Arr ℕ
  dev : Fin max_gpus → Device

section Round

variable {max_gpus : ℕ}

/-- What the parallel region of a round does not change. -/
def env (max_batch_edge_n : ℕ) (s : State max_gpus) : Env where
  max_batch_edge_n := max_batch_edge_n
  node_n := s.new_node_n
  edges := s.edges

/-- The start of the parallel region. -/
def region_init (max_batch_edge_n : ℕ) (s : State max_gpus) :
    Config (Fin max_gpus) Pool Thread where
  shared :=
    { w := fill s.new_node_n (fun _ => s.new_node_n) s.w
      new_node_n := 0
      todo := Finset.range (batch_count s.edges.length max_batch_edge_n) }
  own p := { dev := s.dev p, task := none }

/-- The rest of the round, after the parallel region. -/
def after_region (max_batch_edge_n : ℕ) (s : State max_gpus)
    (cfg : Config (Fin max_gpus) Pool Thread) : State max_gpus :=
  let node_n := s.new_node_n
  let batches := batch_count s.edges.length max_batch_edge_n
  let dev p := (cfg.own p).dev
  if batches > 1 then
    let names := fill_in node_n { w := cfg.shared.w, new_node_n := cfg.shared.new_node_n }
    { node_n := node_n
      new_node_n := names.new_node_n
      edges := compact node_n names.w s.edges
      batches := batches
      w := names.w
      dev := dev }
  else
    { node_n := node_n
      new_node_n := cfg.shared.new_node_n
      edges := s.edges
      batches := batches
      w := cfg.shared.w
      dev := dev }

/-- One round, on any schedule. -/
def Round (cub : Cub) (sums : SumsOf) (Q : ℕ → Device → Prop) (max_batch_edge_n : ℕ)
    (s s' : State max_gpus) : Prop :=
  ∃ cfg, Moves (Exec cub sums Q (env max_batch_edge_n s)) (region_init max_batch_edge_n s) cfg ∧
    Finished cfg ∧ s' = after_region max_batch_edge_n s cfg

theorem Round.mono {cub : Cub} {sums : SumsOf} {Q Q' : ℕ → Device → Prop} {max : ℕ}
    {s s' : State max_gpus} (h : Round cub sums Q max s s') (hQ : ∀ k d, Q k d → Q' k d) :
    Round cub sums Q' max s s' := by
  obtain ⟨cfg, hm, hfin, hs'⟩ := h
  exact ⟨cfg, hm.mono fun _ _ _ _ he => he.mono hQ, hfin, hs'⟩

/-- The state without the devices. -/
def State.host (s : State max_gpus) : Host.State where
  node_n := s.node_n
  new_node_n := s.new_node_n
  edges := s.edges
  batches := s.batches
  w := s.w
  dev := zeroDevice

/-- The loop condition. -/
def again (extra : ℕ → ℕ → Bool) (s : State max_gpus) : Bool :=
  s.batches > 1 && extra s.batches s.edges.length && s.node_n > s.new_node_n

theorem again_host (extra : ℕ → ℕ → Bool) (s : State max_gpus) :
    Host.again extra s.host = again extra s := rfl

/-- The variables before the loop. -/
def init (g : Graph) (dev : Fin max_gpus → Device) : State max_gpus where
  node_n := g.node_n
  new_node_n := g.node_n
  edges := g.edges
  batches := 0
  w := .const 0
  dev := dev

/-- The flag that is printed after the time. -/
def done (s : State max_gpus) : ℕ := if s.batches = 1 then 1 else 0

/-- The devices whose refinement of batch `k` has no collision. -/
def roundCollisionFree (cub : Cub) (max_batch_edge_n : ℕ) (s : State max_gpus) :
    ℕ → Device → Prop :=
  batchCollisionFree cub max_batch_edge_n s.new_node_n s.edges

/-- `k` rounds without collisions lead to `s`, and `q` is the composition of their labels. -/
inductive Run (cub : Cub) (extra : ℕ → ℕ → Bool) (max_batch_edge_n : ℕ) (g : Graph)
    (dev : Fin max_gpus → Device) : ℕ → State max_gpus → (ℕ → ℕ) → Prop
  | start : Run cub extra max_batch_edge_n g dev 0 (init g dev) id
  | next {k : ℕ} {s s' : State max_gpus} {q : ℕ → ℕ}
      (h : Run cub extra max_batch_edge_n g dev k s q) (ha : k = 0 ∨ again extra s = true)
      (hr : Round cub (device_sums cub) (roundCollisionFree cub max_batch_edge_n s)
        max_batch_edge_n s s') :
      Run cub extra max_batch_edge_n g dev (k + 1) s' fun v => s'.w (q v)

/-- `k` rounds lead to `s`, whatever collides. -/
inductive Reached (cub : Cub) (sums : SumsOf) (extra : ℕ → ℕ → Bool) (max_batch_edge_n : ℕ)
    (g : Graph) (dev : Fin max_gpus → Device) : ℕ → State max_gpus → Prop
  | start : Reached cub sums extra max_batch_edge_n g dev 0 (init g dev)
  | next {k : ℕ} {s s' : State max_gpus} (h : Reached cub sums extra max_batch_edge_n g dev k s)
      (ha : k = 0 ∨ again extra s = true) (hr : Round cub sums anyDevice max_batch_edge_n s s') :
      Reached cub sums extra max_batch_edge_n g dev (k + 1) s'

end Round

end Rbsc.Workers
