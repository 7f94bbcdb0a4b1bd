import Rbsc.Workers.Handout

/-!
# Rounds of several workers return

Every schedule of the parallel region ends (`region_wellFounded`), and none gets stuck before the
batches are done (`exists_move`), so that a round with several workers returns (`round_exists`).

One worker that takes the batches in their order does what `Host.run_batches` does
(`solo_run_batches`): the round with one worker is a schedule (`round_of_host`).
-/

namespace Rbsc.Workers

open Arrays DoWhile Gpu Host Interleave Labelling

/-! ## Every schedule ends -/

/-- How many moves the batches that are left take at most. -/
def Pool.left (n : ℕ) (s : Pool) : ℕ := (2 * n + 2) * s.todo.card

/-- How many moves a task takes at most. -/
def Task.left (n : ℕ) (t : Task) : ℕ :=
  match t.line with
  | .label => 2 * (n - t.i) + 1
  | .write => max (2 * (n - t.i)) 2

/-- How many moves a worker makes at most in its batch. -/
def Thread.left (n : ℕ) (l : Thread) : ℕ := l.task.elim 0 (Task.left n)

section Ends

variable {cub : Cub} {sums : SumsOf} {Q : ℕ → Device → Prop} {c : Env} {s s' : Pool} {l l' : Thread}

theorem label_exec_left (n : ℕ) (s : Pool) (t : Task) :
    (label_exec n s t).1.todo = s.todo ∧ (label_exec n s t).2.elim 0 (Task.left n) < t.left n := by
  obtain ⟨batch, mask, part, map, i, line⟩ := t
  cases line with
  | label =>
    simp only [label_exec]
    split_ifs with hi hoff hmap
    · refine ⟨rfl, ?_⟩
      simp only [Option.elim_some, Task.left]
      omega
    · refine ⟨rfl, ?_⟩
      simp only [Option.elim_some, Task.left]
      omega
    · refine ⟨rfl, ?_⟩
      simp only [Option.elim_some, Task.left]
      omega
    · refine ⟨rfl, ?_⟩
      simp only [Option.elim_none, Task.left]
      omega
  | write =>
    refine ⟨rfl, ?_⟩
    simp only [label_exec, Option.elim_some, Task.left]
    omega

/-- **A move brings the region nearer to its end.** -/
theorem Exec.left_lt (h : Exec cub sums Q c s l s' l') :
    s'.left c.node_n + l'.left c.node_n < s.left c.node_n + l.left c.node_n := by
  have herase : ∀ {k}, k ∈ s.todo → (2 * c.node_n + 2) * (s.todo.erase k).card + (2 * c.node_n + 2) =
      (2 * c.node_n + 2) * s.todo.card := fun {k} hk => by
    rw [← Finset.card_erase_add_one hk, Nat.mul_add, Nat.mul_one]
  cases h with
  | skip hk =>
    have := herase hk
    simp only [Pool.left, Thread.left, Option.elim_none]
    omega
  | refine hk =>
    have := herase hk
    simp only [Pool.left, Thread.left, Option.elim_none, Option.elim_some, task_init, Task.left]
    omega
  | @label d t =>
    obtain ⟨htodo, hlt⟩ := label_exec_left c.node_n s t
    simp only [Pool.left, Thread.left, htodo, Option.elim_some]
    omega

/-- **Every schedule ends.** -/
theorem region_wellFounded (cub : Cub) (sums : SumsOf) (Q : ℕ → Device → Prop) (c : Env)
    (max_gpus : ℕ) : WellFounded fun cfg' cfg : Config (Fin max_gpus) Pool Thread =>
      Move (Exec cub sums Q c) cfg cfg' :=
  move_wellFounded fun _ _ _ _ h => h.left_lt

end Ends

/-! ## No schedule gets stuck -/

section Progress

variable {max_gpus : ℕ} (cub : Cub) (sums : SumsOf) {c : Env}

/-- Some worker can move until the batches are done. -/
theorem exists_move (hfit : ∀ k win, c.windows k = some win → GridFits c.node_n)
    (hn : 0 < c.node_n) (hgpus : 0 < max_gpus) (cfg : Config (Fin max_gpus) Pool Thread)
    (hfin : ¬ Finished cfg) :
    ∃ cfg', Move (Exec cub sums anyDevice c) cfg cfg' := by
  by_cases hidle : ∀ p, (cfg.own p).task = none
  · -- all are idle, and some batch is left
    have htodo : cfg.shared.todo.Nonempty := by
      rw [Finset.nonempty_iff_ne_empty]
      intro h
      exact hfin ⟨h, hidle⟩
    obtain ⟨k, hk⟩ := htodo
    have hp : cfg.own ⟨0, hgpus⟩ = ⟨(cfg.own ⟨0, hgpus⟩).dev, none⟩ := by
      rw [← hidle ⟨0, hgpus⟩]
    cases hwin : c.windows k with
    | none =>
      exact ⟨_, move_of hp (.skip hk hwin)⟩
    | some win =>
      obtain ⟨r, hr⟩ := refine_returns cub (batchSums sums c.node_n c.edges k win) win.batch_mask
        win.off_batch_node_n (cfg.own ⟨0, hgpus⟩).dev (hfit k win hwin) hn le_rfl
      exact ⟨_, move_of hp (.refine hk hwin trivial hr)⟩
  · push Not at hidle
    obtain ⟨p, hp⟩ := hidle
    obtain ⟨t, ht⟩ := Option.ne_none_iff_exists'.1 hp
    have hown : cfg.own p = ⟨(cfg.own p).dev, some t⟩ := by rw [← ht]
    exact ⟨_, move_of hown .label⟩

/-- **The parallel region returns** from wherever it is. -/
theorem region_returns (hfit : ∀ k win, c.windows k = some win → GridFits c.node_n)
    (hn : 0 < c.node_n) (hgpus : 0 < max_gpus) (cfg : Config (Fin max_gpus) Pool Thread) :
    ∃ cfg', Moves (Exec cub sums anyDevice c) cfg cfg' ∧ Finished cfg' := by
  induction cfg using (region_wellFounded cub sums anyDevice c max_gpus).induction with
  | _ cfg ih =>
    by_cases hfin : Finished cfg
    · exact ⟨cfg, Relation.ReflTransGen.refl, hfin⟩
    · obtain ⟨cfg₁, hm⟩ := exists_move cub sums hfit hn hgpus cfg hfin
      obtain ⟨cfg', hms, hfin'⟩ := ih cfg₁ hm
      exact ⟨cfg', hms.head hm, hfin'⟩

/-- **A round with several workers returns.** -/
theorem round_exists (max : ℕ) (s : State max_gpus)
    (hfit : KernelsFit max s.new_node_n s.edges) (hmax : 1 ≤ max) (hn : 0 < s.new_node_n)
    (hgpus : 0 < max_gpus) : ∃ s', Round cub sums anyDevice max s s' := by
  obtain ⟨cfg, hms, hfin⟩ := region_returns cub sums (c := env max s)
    (fun _ _ hwin => hfit.gridFits hmax hwin) hn hgpus (region_init max s)
  exact ⟨_, cfg, hms, hfin, rfl⟩

end Progress

/-! ## One worker alone -/

section Solo

variable {max_gpus : ℕ} {cub : Cub} {sums : SumsOf} {Q : ℕ → Device → Prop} {c : Env}
  {todo : Finset ℕ} {fuel : ℕ}

/-- The state of the loop that hands out labels, as a state of a worker. -/
def labelled_state (todo : Finset ℕ) (d : Device) (t : Task) (x : Labels) (i : ℕ) : Pool × Thread :=
  (⟨x.w, x.new_node_n, todo⟩, ⟨d, some { t with current_label_map := x.label_map, i := i }⟩)

/-- One statement of the loop that hands out labels. -/
theorem solo_label {s s' : Pool} {d : Device} {t : Task} {o : Option Task}
    (h : label_exec c.node_n s t = (s', o)) :
    Solo (Exec cub sums Q c) (s, ⟨d, some t⟩) (s', ⟨d, o⟩) := by
  apply Relation.ReflTransGen.single
  have hm : Exec cub sums Q c s ⟨d, some t⟩ _ _ := Exec.label
  rwa [h] at hm

/-- One turn of the loop. -/
theorem solo_label_step {d : Device} {t : Task} {x : Labels} {i : ℕ} (hl : t.line = .label)
    (hi : i < c.node_n) :
    Solo (Exec cub sums Q c) (labelled_state todo d t x i) (labelled_state todo d t
      (label_step c.node_n t.current_batch_mask t.current_batch_partition x i) (i + 1)) := by
  set t₀ : Task := { t with current_label_map := x.label_map, i := i } with ht₀
  by_cases hoff : t.current_batch_mask i = .OFF_BATCH
  · rw [label_step_of_off hoff]
    have hex := label_exec_off (s := ⟨x.w, x.new_node_n, todo⟩) (t := t₀) hl hi hoff
    exact solo_label hex
  · -- the test, and the write
    set x' := label_step c.node_n t.current_batch_mask t.current_batch_partition x i with hx'
    set t₁ : Task := { t₀ with current_label_map := x'.label_map, line := .write } with ht₁
    have hex := label_exec_label (s := ⟨x.w, x.new_node_n, todo⟩) (t := t₀) hl hi hoff x.w hx'
    have hex' := label_exec_write (n := c.node_n) (s := ⟨x.w, x'.new_node_n, todo⟩) (t := t₁) rfl
    have hw : x'.w = x.w.set i (x'.label_map (localLabel t.current_batch_partition i)) := by
      rw [← label_step_self hoff, ← hx', label_step_w hoff, Arr.set_self]
    have hfirst : Solo (Exec cub sums Q c) (labelled_state todo d t x i)
        (⟨x.w, x'.new_node_n, todo⟩, ⟨d, some t₁⟩) := solo_label hex
    apply hfirst.trans
    have hend : labelled_state todo d t x' (i + 1) =
        (⟨x.w.set i (x'.label_map (localLabel t.current_batch_partition i)), x'.new_node_n, todo⟩,
          ⟨d, some { t₁ with i := i + 1, line := .label }⟩) := by
      rw [labelled_state, hw, ht₁, ht₀, ← hl]
    rw [hend]
    exact solo_label hex'

/-- The loop. -/
theorem solo_label_loop {d : Device} {t : Task} {x : Labels} (hl : t.line = .label) :
    ∀ j ≤ c.node_n, Solo (Exec cub sums Q c) (labelled_state todo d t x 0) (labelled_state todo d t
      ((List.range j).foldl
        (label_step c.node_n t.current_batch_mask t.current_batch_partition) x) j) := by
  intro j
  induction j with
  | zero => exact fun _ => Relation.ReflTransGen.refl
  | succ j ih =>
    intro hj
    rw [List.range_succ, List.foldl_append, List.foldl_cons, List.foldl_nil]
    exact (ih (by omega)).trans (solo_label_step hl (by omega))

/-- **One batch.** -/
theorem solo_run_batch {b b' : Batches} {k : ℕ} (hk : k ∈ todo) (hQ : Q k b.dev)
    (h : run_batch cub sums c.max_batch_edge_n c.node_n c.edges fuel b k = some b') :
    Solo (Exec cub sums Q c) (⟨b.w, b.new_node_n, todo⟩, ⟨b.dev, none⟩)
      (⟨b'.w, b'.new_node_n, todo.erase k⟩, ⟨b'.dev, none⟩) := by
  unfold run_batch at h
  cases hwin : select_window c.max_batch_edge_n c.node_n c.edges k with
  | none =>
    rw [hwin] at h
    cases h
    exact Relation.ReflTransGen.single (Exec.skip (s := ⟨b.w, b.new_node_n, todo⟩) hk hwin)
  | some win =>
    rw [hwin] at h
    obtain ⟨r, hr, rfl⟩ := Option.map_eq_some_iff.1 h
    set t := task_init c.node_n k win r.dev with ht
    set x : Labels := ⟨b.w, b.new_node_n, label_map_init c.node_n⟩ with hx
    have htake : Solo (Exec cub sums Q c) (⟨b.w, b.new_node_n, todo⟩, ⟨b.dev, none⟩)
        (labelled_state (todo.erase k) r.dev t x 0) :=
      Relation.ReflTransGen.single (Exec.refine (s := ⟨b.w, b.new_node_n, todo⟩) hk hwin hQ hr)
    apply (htake.trans (solo_label_loop rfl c.node_n le_rfl)).trans
    -- the loop is left
    set y := (List.range c.node_n).foldl
      (label_step c.node_n t.current_batch_mask t.current_batch_partition) x with hy
    have hex := label_exec_finish (n := c.node_n) (s := ⟨y.w, y.new_node_n, todo.erase k⟩)
      (t := { t with current_label_map := y.label_map, i := c.node_n }) rfl (lt_irrefl _)
    exact solo_label hex

/-- **The batches in their order.** -/
theorem solo_run_batches {b : Batches} {m : ℕ} (hm : ∀ k < m, k ∈ todo)
    (hQ : ∀ k < m, ∀ b', run_batches cub sums c.max_batch_edge_n c.node_n c.edges fuel k b =
      some b' → Q k b'.dev) {b' : Batches}
    (h : run_batches cub sums c.max_batch_edge_n c.node_n c.edges fuel m b = some b') :
    Solo (Exec cub sums Q c) (⟨b.w, b.new_node_n, todo⟩, ⟨b.dev, none⟩)
      (⟨b'.w, b'.new_node_n, todo \ Finset.range m⟩, ⟨b'.dev, none⟩) := by
  induction m generalizing b' with
  | zero =>
    cases h
    rw [Finset.range_zero, Finset.sdiff_empty]
    exact Relation.ReflTransGen.refl
  | succ m ih =>
    rw [run_batches_succ] at h
    obtain ⟨b₁, hb₁, hb⟩ := Option.bind_eq_some_iff.1 h
    have hrest := ih (fun k hk => hm k (by omega)) (fun k hk => hQ k (by omega)) hb₁
    have hset : todo \ Finset.range (m + 1) = (todo \ Finset.range m).erase m := by
      ext k
      simp only [Finset.mem_sdiff, Finset.mem_range, Finset.mem_erase]
      constructor
      · rintro ⟨hk, hkm⟩
        exact ⟨by omega, hk, by omega⟩
      · rintro ⟨hne, hk, hkm⟩
        exact ⟨hk, by omega⟩
    rw [hset]
    refine hrest.trans (solo_run_batch ?_ (hQ m (by omega) b₁ hb₁) hb)
    rw [Finset.mem_sdiff, Finset.mem_range]
    exact ⟨hm m (by omega), lt_irrefl m⟩

/-- **The round with one worker is a schedule**, of any of the workers. -/
theorem round_of_host {max : ℕ} {s : State max_gpus} (p : Fin max_gpus) {s' : Host.State}
    (hQ : StartsIn cub sums max Q { s.host with dev := s.dev p })
    (h : Host.round cub sums max fuel { s.host with dev := s.dev p } = some s') :
    ∃ s₁ : State max_gpus, Round cub sums Q max s s₁ ∧ s₁.host = { s' with dev := zeroDevice } ∧
      s₁.dev = Function.update s.dev p s'.dev := by
  obtain ⟨b, hb, hs'⟩ := Option.map_eq_some_iff.1 h
  set cfg := region_init max s with hcfg
  have hsolo := solo_run_batches (c := env max s) (Q := Q) (fun k hk =>
    show k ∈ cfg.shared.todo from Finset.mem_range.2 hk) (fun k hk b' hb' => hQ fuel k hk b' hb') hb
  have hmoves := Solo.moves cfg p hsolo
  refine ⟨_, ⟨_, hmoves, ⟨Finset.sdiff_self _, fun q => ?_⟩, rfl⟩, ?_, ?_⟩
  · by_cases hq : q = p
    · subst hq
      simp
    · simp [hq, hcfg, region_init]
  · change (if 1 < batch_count s.edges.length max then _ else _) = s' at hs'
    unfold after_region
    dsimp only
    by_cases hbat : 1 < batch_count s.edges.length max
    · rw [if_pos hbat] at hs' ⊢
      subst hs'
      rfl
    · rw [if_neg hbat] at hs' ⊢
      subst hs'
      rfl
  · have hdev' : s'.dev = b.dev := by
      rw [← hs']
      split_ifs <;> rfl
    rw [hdev']
    have hdev : ∀ q, (Function.update cfg.own p ⟨b.dev, none⟩ q).dev =
        Function.update s.dev p b.dev q := fun q => by
      by_cases hq : q = p
      · subst hq
        simp
      · simp [hq, hcfg, region_init]
    funext q
    unfold after_region
    dsimp only
    split_ifs <;> exact hdev q

/-- **The run with one worker is a run**, of any of the workers. -/
theorem run_of_host {extra : ℕ → ℕ → Bool} {max : ℕ} {g : Graph} {d : Device} {k : ℕ}
    {s : Host.State} {q : ℕ → ℕ} (hcf : CollisionFreeRun cub extra max g d)
    (h : Composition cub extra max g d k s q) (dev : Fin max_gpus → Device) (p : Fin max_gpus)
    (hp : dev p = d) :
    ∃ s₁ : State max_gpus, Run cub extra max g dev k s₁ q ∧
      s₁.host = { s with dev := zeroDevice } ∧ s₁.dev p = s.dev := by
  induction h with
  | start => exact ⟨init g dev, .start, rfl, hp⟩
  | @next k fuel s s' q h hat hr ih =>
    obtain ⟨s₁, hrun, hhost, hdev⟩ := ih
    have hs : ({ s₁.host with dev := s₁.dev p } : Host.State) = s := by rw [hhost, hdev]
    have ha : k = 0 ∨ again extra s₁ = true := by
      obtain ⟨_, hat⟩ := hat
      cases hat with
      | start => exact Or.inl rfl
      | next _ _ ha =>
        right
        rw [← again_host, hhost]
        exact ha
    obtain ⟨s₂, hround, hhost₂, hdev₂⟩ := round_of_host p (s := s₁) (by rw [hs]; exact hcf k s hat)
      (by rw [hs]; exact hr)
    have hQ : batchCollisionFree cub max s.new_node_n s.edges = roundCollisionFree cub max s₁ := by
      rw [← hs]
      rfl
    rw [hQ] at hround
    have hw : s₂.w = s'.w := congrArg Host.State.w hhost₂
    refine ⟨s₂, hw ▸ hrun.next ha hround, hhost₂, ?_⟩
    rw [hdev₂, Function.update_self]

end Solo

end Rbsc.Workers
