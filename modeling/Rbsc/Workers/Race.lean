import Rbsc.Workers.Alone
import Rbsc.Workers.Parallel

/-!
# Workers that disturb each other

`new_batch_start`, `new_batch_end` and `off_batch_node_n` are shared.  When one worker has all
batches, nobody writes them while it needs them, and it goes on with its own windows.  When two
workers have batches, there is an interleaving in which a worker commits a window that reaches from
the first edge to the last (`exists_foreign_window`).  So no interleaving does harm exactly when one
worker has all batches (`ownBatch_iff`).  Then every refinement that a worker starts is that of a
batch in a round with window variables of its own (`refined_of_one_owner`).
-/

namespace Rbsc.Workers

open Arrays Gpu Host Interleave

variable {c : Env} {max_gpus : ℕ} {owner : ℕ → Fin max_gpus} {batches : ℕ}
  {cfg cfg' : Config (Fin max_gpus) Shared Worker}

theorem mem_batchesOf {p : Fin max_gpus} {k : ℕ} :
    k ∈ batchesOf owner batches p ↔ k < batches ∧ owner k = p := by
  simp [batchesOf]

/-- At the start no worker has been disturbed. -/
theorem Start.inv (hmax : 1 ≤ c.max_batch_edge_n)
    (h : Start owner (batch_count c.edges.length c.max_batch_edge_n) cfg) (p : Fin max_gpus) :
    Inv c cfg.shared (cfg.own p) := by
  obtain ⟨hline, htodo⟩ := h p
  refine ⟨fun k hk => ?_, fun hne => absurd hline hne, ?_⟩
  · rw [htodo, mem_batchesOf] at hk
    exact (lt_batch_count hmax).1 hk.1
  · rw [LineInv, hline]
    trivial

/-- Between its batches a worker does not depend on the shared variables. -/
theorem Inv.of_next {s : Shared} {w : Worker} (h : Inv c s w) (hl : w.line = .next) (s' : Shared) :
    Inv c s' w := by
  refine ⟨h.todo, h.raw, ?_⟩
  rw [LineInv, hl]
  trivial

/-! ## One worker -/

theorem exec_idle {s : Shared} {w : Worker} (hl : w.line = .next) (ht : w.todo = []) :
    exec c s w = (s, w) := by rw [exec, hl, ht]

/-- **One worker has all batches**: it is not disturbed. -/
theorem ownBatch_of_one_owner (hmax : 1 ≤ c.max_batch_edge_n) {p : Fin max_gpus}
    (hp : ∀ k < batch_count c.edges.length c.max_batch_edge_n, owner k = p)
    (h0 : Start owner (batch_count c.edges.length c.max_batch_edge_n) cfg)
    (h : Reach (exec c) cfg cfg') (q : Fin max_gpus) : OwnBatch c (cfg'.own q) := by
  have hidle : ∀ q ≠ p, ∀ s, exec c s (cfg.own q) = (s, cfg.own q) := fun q hq s => by
    obtain ⟨hline, htodo⟩ := h0 q
    refine exec_idle hline (htodo.trans (List.eq_nil_iff_forall_not_mem.2 fun k hk => ?_))
    obtain ⟨hk, hown⟩ := mem_batchesOf.1 hk
    exact hq (hown.symm.trans (hp k hk))
  obtain ⟨hinv, hothers⟩ := h.inv_alone hidle (h0.inv hmax p) fun _ _ hI => hI.exec
  by_cases hq : q = p
  · rw [hq]
    exact hinv.ownBatch
  · have hline := (h0 q).line
    rw [← hothers q hq] at hline
    refine ⟨fun hl => ?_, fun hl => ?_⟩ <;> exact absurd (hline.symm.trans hl) (by simp)

/-! ## Runs of one worker -/

/-- The statements up to the test after the scan. -/
def Line.early : Line → Bool
  | .batch_start | .batch_end | .batch_node_n | .mask_init | .start_not_init | .end_not_init
  | .scan_start | .scan_end | .scan_mask | .last_end => true
  | _ => false

theorem exec_early {s : Shared} {w : Worker} (h : w.line.early = true) (hne : w.line ≠ .last_end) :
    (exec c s w).2.line.early = true ∧ (exec c s w).2.batch = w.batch ∧
      (exec c s w).2.todo = w.todo := by
  obtain ⟨line, todo, batch, bs, be, bnn, ben, i, mask, z, nz⟩ := w
  unfold exec
  cases line <;> simp only [Line.early, Bool.false_eq_true] at h <;> dsimp only <;>
    first | exact absurd rfl hne | (split_ifs <;> exact ⟨rfl, rfl, rfl⟩) | exact ⟨rfl, rfl, rfl⟩

theorem exec_todo {s : Shared} {w : Worker} (h : w.line ≠ .next) :
    (exec c s w).2.todo = w.todo := by
  obtain ⟨line, todo, batch, bs, be, bnn, ben, i, mask, z, nz⟩ := w
  unfold exec
  cases line <;> dsimp only <;> first | exact absurd rfl h | rfl | (split_ifs <;> rfl)

/-- A worker that is not disturbed is at the test after the scan of batch `k`. -/
structure AtLastEnd (c : Env) (k : ℕ) (todo : List ℕ) (s : Shared) (w : Worker) : Prop where
  inv : Inv c s w
  line : w.line = .last_end
  batch : w.batch = k
  todo : w.todo = todo

/-- Alone, a worker gets to the test after the scan. -/
theorem leads_last_end (c : Env) (k : ℕ) (todo : List ℕ) :
    Leads (exec c)
      (fun s w => Inv c s w ∧ w.line.early = true ∧ w.batch = k ∧ w.todo = todo)
      (AtLastEnd c k todo) := by
  refine leads_of_measure (distance c) fun s w ⟨hinv, he, hk, ht⟩ hT => ?_
  have hne : w.line ≠ .last_end := fun hl => hT ⟨hinv, hl, hk, ht⟩
  obtain ⟨he', hk', ht'⟩ := exec_early (c := c) (s := s) he hne
  refine ⟨⟨hinv.exec, he', hk'.trans hk, ht'.trans ht⟩, distance_exec c s w fun hl => ?_⟩
  rw [hl] at he
  cases he

/-- Alone, a worker gets to its next batch. -/
theorem leads_next (c : Env) (todo : List ℕ) :
    Leads (exec c) (fun s w => Inv c s w ∧ w.todo = todo)
      (fun s w => Inv c s w ∧ w.todo = todo ∧ w.line = .next) := by
  refine leads_of_measure (distance c) fun s w ⟨hinv, ht⟩ hT => ?_
  have hne : w.line ≠ .next := fun hl => hT ⟨hinv, ht, hl⟩
  exact ⟨⟨hinv.exec, (exec_todo hne).trans ht⟩, distance_exec c s w hne⟩

/-- The step that takes a batch. -/
theorem step_next {p : Fin max_gpus} {k : ℕ} {todo : List ℕ}
    (hinv : Inv c cfg.shared (cfg.own p)) (hl : (cfg.own p).line = .next)
    (ht : (cfg.own p).todo = k :: todo) :
    Inv c (cfg.step (exec c) p).shared ((cfg.step (exec c) p).own p) ∧
      ((cfg.step (exec c) p).own p).line.early = true ∧
      ((cfg.step (exec c) p).own p).batch = k ∧ ((cfg.step (exec c) p).own p).todo = todo := by
  have hstep : (exec c cfg.shared (cfg.own p)).2 =
      { cfg.own p with line := .batch_start, todo := todo, batch := k } := by rw [exec, hl, ht]
  rw [step_shared, step_own_self]
  refine ⟨hinv.exec, ?_⟩
  rw [hstep]
  exact ⟨rfl, rfl, rfl⟩

/-- **Alone, a worker gets to the test after the scan of any batch that is left to it.** -/
theorem reach_last_end {p : Fin max_gpus} {k : ℕ} {before todo : List ℕ}
    (hinv : Inv c cfg.shared (cfg.own p)) (hl : (cfg.own p).line = .next)
    (ht : (cfg.own p).todo = before ++ k :: todo) :
    ∃ cfg', Reach (exec c) cfg cfg' ∧ AtLastEnd c k todo cfg'.shared (cfg'.own p) ∧
      ∀ q ≠ p, cfg'.own q = cfg.own q := by
  induction before generalizing cfg with
  | nil =>
    obtain ⟨hinv', he, hk, ht'⟩ := step_next hinv hl ht
    obtain ⟨cfg', hr, hat, hothers⟩ := (leads_last_end c k todo).reach ⟨hinv', he, hk, ht'⟩
    exact ⟨cfg', (reach_step cfg p).trans hr, hat,
      fun q hq => (hothers q hq).trans (step_own_of_ne _ _ _ hq)⟩
  | cons k' before ih =>
    -- the batch before comes first, and ends
    obtain ⟨hinv', -, -, ht'⟩ := step_next hinv hl ht
    obtain ⟨cfg₁, hr₁, ⟨hinv₁, ht₁, hl₁⟩, hothers₁⟩ := (leads_next c _).reach ⟨hinv', ht'⟩
    obtain ⟨cfg₂, hr₂, hat, hothers₂⟩ := ih hinv₁ hl₁ ht₁
    exact ⟨cfg₂, ((reach_step cfg p).trans hr₁).trans hr₂, hat, fun q hq =>
      (hothers₂ q hq).trans ((hothers₁ q hq).trans (step_own_of_ne _ _ _ hq))⟩

/-! ## Two workers -/

/-- The test after the scan of the first batch: the window starts at the first edge. -/
theorem AtLastEnd.start_zero {s : Shared} {w : Worker} {todo : List ℕ}
    (h : AtLastEnd c 0 todo s w) (hmax : 1 ≤ c.max_batch_edge_n) :
    s.new_batch_start = some 0 := by
  have hraw := h.inv.raw (by rw [h.line]; simp)
  have hline := h.inv.line
  rw [LineInv, h.line] at hline
  obtain ⟨-, -, -, hs, -⟩ := hline
  rw [h.batch] at hraw hs
  have hlt := raw_lt hraw hmax
  have h0 : rawStart c.max_batch_edge_n 0 = 0 := Nat.zero_mul _
  rw [h0] at hlt
  have hscan := scan_inv c.node_n hraw
  have hcut : Cut c.edges 0 := Or.inl rfl
  rw [hs]
  cases hn : (scanned c 0).new_batch_start with
  | none => exact absurd hcut (hscan.start_none hn 0 h0.le hlt)
  | some a =>
    obtain ⟨-, -, -, hmin⟩ := hscan.start_some a hn
    have ha : ¬ 0 < a := fun ha => hmin 0 h0.le ha hcut
    rw [Nat.eq_zero_of_not_pos ha]

theorem AtLastEnd.batch_end {s : Shared} {w : Worker} {k : ℕ} {todo : List ℕ}
    (h : AtLastEnd c k todo s w) :
    w.batch_end = some (rawEnd c.max_batch_edge_n c.edges k) := by
  have hline := h.inv.line
  rw [LineInv, h.line] at hline
  obtain ⟨hr, -⟩ := hline
  rw [hr.end_eq, h.batch]

/-- The test after the scan sets the end when the raw range ends at the last edge. -/
theorem exec_last_end_shared {s : Shared} {w : Worker} (hl : w.line = .last_end)
    (he : w.batch_end = some c.edges.length) :
    (exec c s w).1.new_batch_end = some c.edges.length ∧
      (exec c s w).1.new_batch_start = s.new_batch_start := by
  rw [exec, hl]
  dsimp only
  rw [he, u64_some, if_pos (Or.inl rfl)]
  exact ⟨rfl, rfl⟩

/-- The statements that read the window. -/
theorem exec_last_end {s : Shared} {w : Worker} (hl : w.line = .last_end) :
    (exec c s w).2 = { w with line := .commit_start } := by rw [exec, hl]

theorem exec_commit_start {s : Shared} {w : Worker} (hl : w.line = .commit_start) :
    exec c s w = (s, { w with line := .commit_end, batch_start := s.new_batch_start }) := by
  rw [exec, hl]

theorem exec_commit_end {s : Shared} {w : Worker} (hl : w.line = .commit_end) :
    exec c s w = (s, { w with line := .skip, batch_end := s.new_batch_end }) := by rw [exec, hl]

/-- The raw range of the last batch ends at the last edge. -/
theorem rawEnd_last {last : ℕ} (hmax : 1 ≤ c.max_batch_edge_n)
    (hlast : batch_count c.edges.length c.max_batch_edge_n = last + 1) :
    rawEnd c.max_batch_edge_n c.edges last = c.edges.length := by
  have h : ¬ last + 1 < batch_count c.edges.length c.max_batch_edge_n := by omega
  rw [lt_batch_count hmax, Nat.succ_mul] at h
  exact Nat.min_eq_left (by omega)

/-- A batch that has not all edges to itself does not have the window of all edges. -/
theorem not_own_all {k : ℕ} (hmax : 1 ≤ c.max_batch_edge_n)
    (hcount : 1 < batch_count c.edges.length c.max_batch_edge_n)
    (hk : k < batch_count c.edges.length c.max_batch_edge_n) :
    (select_window c.max_batch_edge_n c.node_n c.edges k).map
      (fun win => (win.batch_start, win.batch_end)) ≠ some (0, c.edges.length) := by
  intro h
  obtain ⟨win, hwin, hw⟩ := Option.map_eq_some_iff.1 h
  obtain ⟨hs, he⟩ := Prod.ext_iff.1 hw
  have hraw := (lt_batch_count hmax).1 hk
  obtain ⟨h₁, -, h₂, -⟩ := select_window_some hraw hmax hwin
  have h₃ := (lt_batch_count hmax).1 hcount
  dsimp only at hs he
  rw [hs] at h₁
  rw [he] at h₂
  unfold rawStart rawEnd at *
  cases k with
  | zero => omega
  | succ k =>
    rw [Nat.succ_mul] at h₁
    omega

/-- A worker commits the window of all edges. -/
def ForeignWindow (c : Env) (cfg : Config (Fin max_gpus) Shared Worker) : Prop :=
  ∃ p, (cfg.own p).line = .skip ∧
    (cfg.own p).batch < batch_count c.edges.length c.max_batch_edge_n ∧
    committed (cfg.own p) = some (0, c.edges.length)

section Foreign

variable {last : ℕ} (hmax : 1 ≤ c.max_batch_edge_n)
  (hlast : batch_count c.edges.length c.max_batch_edge_n = last + 1)
  (h0 : Start owner (batch_count c.edges.length c.max_batch_edge_n) cfg)

include hmax hlast h0

/-- Another worker has the last batch: it sets the end between the end of the scan of the first
batch and the statements that read the window of the first batch. -/
theorem exists_foreign_of_last_ne (hne : owner last ≠ owner 0) :
    ∃ cfg', Reach (exec c) cfg cfg' ∧ ForeignWindow c cfg' := by
  set p := owner 0 with hp
  set r := owner last with hr
  obtain ⟨beforel, todol, hsplitl⟩ := List.append_of_mem (mem_batchesOf.2 ⟨by omega, rfl⟩ :
    last ∈ batchesOf owner (batch_count c.edges.length c.max_batch_edge_n) r)
  obtain ⟨before, todo, hsplit⟩ := List.append_of_mem (mem_batchesOf.2 ⟨by omega, rfl⟩ :
    0 ∈ batchesOf owner (batch_count c.edges.length c.max_batch_edge_n) p)
  -- worker `r` is about to set the end
  obtain ⟨cfg₁, hr₁, hat₁, ho₁⟩ := reach_last_end (h0.inv hmax r) (h0 r).line
    ((h0 r).todo.trans hsplitl)
  have hp₁ : cfg₁.own p = cfg.own p := ho₁ p (Ne.symm hne)
  have hinv₁ : Inv c cfg₁.shared (cfg₁.own p) := by
    rw [hp₁]
    exact (h0.inv hmax p).of_next (h0 p).line _
  -- worker `p` is about to read the window of the first batch
  obtain ⟨cfg₂, hr₂, hat₂, ho₂⟩ := reach_last_end hinv₁ (by rw [hp₁]; exact (h0 p).line)
    (by rw [hp₁]; exact (h0 p).todo.trans hsplit)
  set cfg₃ := cfg₂.step (exec c) p with hcfg₃
  have hp₃ : cfg₃.own p = { cfg₂.own p with line := .commit_start } := by
    rw [hcfg₃, step_own_self, exec_last_end hat₂.line]
  have hs₃ : cfg₃.shared.new_batch_start = some 0 := by
    rw [hcfg₃, step_shared, exec, hat₂.line]
    exact hat₂.start_zero hmax
  have hr₃ : cfg₃.own r = cfg₁.own r := by
    rw [hcfg₃, step_own_of_ne _ _ _ hne, ho₂ r hne]
  -- the end is set
  set cfg₄ := cfg₃.step (exec c) r with hcfg₄
  obtain ⟨he₄, hs₄⟩ : cfg₄.shared.new_batch_end = some c.edges.length ∧
      cfg₄.shared.new_batch_start = some 0 := by
    have hset := exec_last_end_shared (s := cfg₃.shared) hat₁.line
      (hat₁.batch_end.trans (congrArg some (rawEnd_last hmax hlast)))
    rw [hcfg₄, step_shared, hr₃]
    exact ⟨hset.1, hset.2.trans hs₃⟩
  -- worker `p` reads the start and the end
  set cfg₅ := cfg₄.step (exec c) p with hcfg₅
  have hp₅ : cfg₅.own p =
      { cfg₂.own p with line := .commit_end, batch_start := some 0 } := by
    rw [hcfg₅, step_own_self, hcfg₄, step_own_of_ne _ _ _ (Ne.symm hne), ← hcfg₄, hp₃,
      exec_commit_start rfl, hs₄]
  have hs₅ : cfg₅.shared = cfg₄.shared := by
    rw [hcfg₅, step_shared, hcfg₄, step_own_of_ne _ _ _ (Ne.symm hne), ← hcfg₄, hp₃,
      exec_commit_start rfl]
  refine ⟨cfg₅.step (exec c) p, ?_, p, ?_⟩
  · exact (hr₁.trans hr₂).trans (((reach_step _ p).trans (reach_step _ r)).trans
      ((reach_step _ p).trans (reach_step _ p)))
  · rw [step_own_self, hp₅, exec_commit_end rfl, hs₅]
    refine ⟨rfl, ?_, ?_⟩
    · change (cfg₂.own p).batch < _
      rw [hat₂.batch]
      omega
    · rw [committed]
      simp only [he₄]

/-- The first worker has the last batch as well: between the two statements with which another
worker reads its window, it goes from the first batch to the last. -/
theorem exists_foreign_of_last_eq (heq : owner last = owner 0) {k : ℕ}
    (hk : k < batch_count c.edges.length c.max_batch_edge_n) (hne : owner k ≠ owner 0) :
    ∃ cfg', Reach (exec c) cfg cfg' ∧ ForeignWindow c cfg' := by
  set p := owner 0 with hp
  set q := owner k with hq
  have hk0 : k ≠ 0 := fun h => hne (by rw [hq, h])
  have hklast : k ≠ last := fun h => hne (by rw [hq, h, heq])
  have hfirst : batchesOf owner (batch_count c.edges.length c.max_batch_edge_n) p =
      0 :: ((List.range last).map Nat.succ).filter fun j => owner j = p := by
    rw [batchesOf, hlast, List.range_succ_eq_map, List.filter_cons, if_pos (by simp [hp])]
  have hlmem : last ∈ ((List.range last).map Nat.succ).filter fun j => owner j = p := by
    have hmem := mem_batchesOf.2 (⟨by omega, heq⟩ :
      last < batch_count c.edges.length c.max_batch_edge_n ∧ owner last = p)
    rw [hfirst] at hmem
    exact (List.mem_cons.1 hmem).resolve_left (by omega)
  obtain ⟨between, rest, hbetween⟩ := List.append_of_mem hlmem
  obtain ⟨before, todo, hsplit⟩ := List.append_of_mem (mem_batchesOf.2 ⟨hk, rfl⟩ :
    k ∈ batchesOf owner (batch_count c.edges.length c.max_batch_edge_n) q)
  -- worker `q` is about to read the window of batch `k`
  obtain ⟨cfg₁, hr₁, hat₁, ho₁⟩ := reach_last_end (h0.inv hmax q) (h0 q).line
    ((h0 q).todo.trans hsplit)
  set cfg₂ := cfg₁.step (exec c) q with hcfg₂
  have hq₂ : cfg₂.own q = { cfg₁.own q with line := .commit_start } := by
    rw [hcfg₂, step_own_self, exec_last_end hat₁.line]
  have hp₂ : cfg₂.own p = cfg.own p := by
    rw [hcfg₂, step_own_of_ne _ _ _ (Ne.symm hne), ho₁ p (Ne.symm hne)]
  have hinv₂ : Inv c cfg₂.shared (cfg₂.own p) := by
    rw [hp₂]
    exact (h0.inv hmax p).of_next (h0 p).line _
  -- worker `p` finds the start of the first batch
  obtain ⟨cfg₃, hr₃, hat₃, ho₃⟩ := reach_last_end hinv₂
    (by rw [hp₂]; exact (h0 p).line)
    (show _ = [] ++ 0 :: _ by rw [hp₂]; exact (h0 p).todo.trans hfirst)
  -- worker `q` reads the start
  set cfg₄ := cfg₃.step (exec c) q with hcfg₄
  have hq₄ : cfg₄.own q = { cfg₁.own q with line := .commit_end, batch_start := some 0 } := by
    rw [hcfg₄, step_own_self, ho₃ q hne, hq₂, exec_commit_start rfl, hat₃.start_zero hmax]
  have hs₄ : cfg₄.shared = cfg₃.shared := by
    rw [hcfg₄, step_shared, ho₃ q hne, hq₂, exec_commit_start rfl]
  have hp₄ : cfg₄.own p = cfg₃.own p := by rw [hcfg₄, step_own_of_ne _ _ _ (Ne.symm hne)]
  -- worker `p` goes on to the last batch, and finds its end
  have hinv₄ : Inv c cfg₄.shared (cfg₄.own p) := by
    rw [hs₄, hp₄]
    exact hat₃.inv
  obtain ⟨cfg₅, hr₅, ⟨hinv₅, ht₅, hl₅⟩, ho₅⟩ := (leads_next c _).reach ⟨hinv₄, rfl⟩
  rw [hp₄, hat₃.todo, hbetween] at ht₅
  obtain ⟨cfg₆, hr₆, hat₆, ho₆⟩ := reach_last_end hinv₅ hl₅ ht₅
  set cfg₇ := cfg₆.step (exec c) p with hcfg₇
  have hq₇ : cfg₇.own q = cfg₄.own q := by
    rw [hcfg₇, step_own_of_ne _ _ _ hne, ho₆ q hne, ho₅ q hne]
  have he₇ : cfg₇.shared.new_batch_end = some c.edges.length :=
    (exec_last_end_shared hat₆.line
      (hat₆.batch_end.trans (congrArg some (rawEnd_last hmax hlast)))).1
  -- worker `q` reads the end
  refine ⟨cfg₇.step (exec c) q, ?_, q, ?_⟩
  · exact ((hr₁.trans (reach_step _ q)).trans (hr₃.trans (reach_step _ q))).trans
      ((hr₅.trans hr₆).trans ((reach_step _ p).trans (reach_step _ q)))
  · rw [step_own_self, hq₇, hq₄, exec_commit_end rfl]
    refine ⟨rfl, ?_, ?_⟩
    · exact hat₁.batch.trans_lt hk
    · rw [committed]
      simp only [he₇]

end Foreign

/-- A start of the region. -/
def startOf (owner : ℕ → Fin max_gpus) (batches : ℕ) : Config (Fin max_gpus) Shared Worker where
  shared := ⟨none, none, 0⟩
  own p := ⟨.next, batchesOf owner batches p, 0, none, none, 0, 0, 0, .const .OFF_BATCH, 0, 0⟩

theorem start_startOf (owner : ℕ → Fin max_gpus) (batches : ℕ) :
    Start owner batches (startOf owner batches) := fun _ => ⟨rfl, rfl⟩

/-- A worker with a foreign window does not go on with its own. -/
theorem ForeignWindow.not_ownBatch (h : ForeignWindow c cfg) (hmax : 1 ≤ c.max_batch_edge_n)
    (hcount : 1 < batch_count c.edges.length c.max_batch_edge_n) :
    ∃ p, ¬ OwnBatch c (cfg.own p) := by
  obtain ⟨p, hl, hk, hw⟩ := h
  exact ⟨p, fun hown => not_own_all hmax hcount hk ((hown.window hl).symm.trans hw)⟩

/-- **When the workers do not disturb each other.**  No interleaving of the statements gives a
worker anything but the window and the start count of its batch, exactly when one worker has all
batches. -/
theorem ownBatch_iff (c : Env) {max_gpus : ℕ} (owner : ℕ → Fin max_gpus)
    (hmax : 1 ≤ c.max_batch_edge_n) :
    (∀ cfg cfg', Start owner (batch_count c.edges.length c.max_batch_edge_n) cfg →
      Reach (exec c) cfg cfg' → ∀ p, OwnBatch c (cfg'.own p)) ↔
      ∀ k < batch_count c.edges.length c.max_batch_edge_n, owner k = owner 0 := by
  constructor
  · intro h k hk
    by_contra hne
    have hk0 : k ≠ 0 := fun h => hne (by rw [h])
    obtain ⟨last, hlast⟩ : ∃ last, batch_count c.edges.length c.max_batch_edge_n = last + 1 :=
      ⟨_, (Nat.succ_pred_eq_of_pos (by omega)).symm⟩
    have hstart := start_startOf owner (batch_count c.edges.length c.max_batch_edge_n)
    obtain ⟨cfg', hr, hf⟩ : ∃ cfg', Reach (exec c) (startOf owner _) cfg' ∧
        ForeignWindow c cfg' := by
      by_cases heq : owner last = owner 0
      · exact exists_foreign_of_last_eq hmax hlast hstart heq hk hne
      · exact exists_foreign_of_last_ne hmax hlast hstart heq
    obtain ⟨p, hp⟩ := hf.not_ownBatch hmax (by omega)
    exact hp (h _ cfg' hstart hr p)
  · intro hall cfg cfg' h0 hr p
    exact ownBatch_of_one_owner hmax hall h0 hr p

/-! ## What the workers refine -/

/-- The refinement that a worker starts with its variables. -/
def Worker.refine (cub : Cub) (sums : SumsOf) (c : Env) (w : Worker) (fuel : ℕ) (d : Device) :
    Option Refine :=
  let window := slice c.edges (u64 w.batch_start) (u64 w.batch_end)
  DoWhile.doWhile
    (Gpu.pass cub (sums c.node_n w.batch window (unique_count window)) c.node_n w.current_batch_mask
      fuel) refine_again fuel
    { dev :=
        { d with d_w := init_partition (node_grid c.node_n) c.node_n w.current_batch_mask d.d_w }
      it := 0
      z_unique_n := w.z_unique_n
      new_z_unique_n := w.new_z_unique_n }

/-- The kernels read the mask of the nodes only. -/
theorem refine_loop_congr {cub : Cub} {sums : Sums} {n off fuel : ℕ} {mask mask' : Arr Mask}
    (h : ∀ v < n, mask v = mask' v) (d : Device) :
    refine_loop cub sums n mask off fuel d = refine_loop cub sums n mask' off fuel d := by
  have hlt : ∀ {i}, i < threads (node_grid n) n → i < n := fun hi => hi.trans_le (Nat.min_le_left ..)
  have hinit : ∀ z, init_partition (node_grid n) n mask z = init_partition (node_grid n) n mask' z :=
    fun z => fill_congr (fun i hi => by rw [h i (hlt hi)]) z
  have hmend : ∀ z sorted_z, mend_partition (node_grid n) z sorted_z mask n =
      mend_partition (node_grid n) z sorted_z mask' n :=
    fun z sorted_z => fill_congr (fun i hi => by rw [h i (hlt hi)]) z
  have hpass : Gpu.pass cub sums n mask fuel = Gpu.pass cub sums n mask' fuel := by
    funext r
    simp only [Gpu.pass, classify, hmend]
  rw [refine_loop, refine_loop, hpass, refine_init, refine_init, hinit]

/-- A worker that goes on with its own window starts the refinement of its batch. -/
theorem OwnBatch.refine_eq {w : Worker} (h : OwnBatch c w) (hl : w.line = .refine) (cub : Cub)
    (sums : SumsOf) : ∃ win, windows c.max_batch_edge_n c.node_n c.edges w.batch = some win ∧
      ∀ fuel d, w.refine cub sums c fuel d = refine_loop cub
        (batchSums sums c.node_n c.edges w.batch win) c.node_n win.batch_mask win.off_batch_node_n
          fuel d := by
  obtain ⟨win, hwin, hs, he, hmask, hz, hnz⟩ := h.refine hl
  refine ⟨win, hwin, fun fuel d => ?_⟩
  rw [← refine_loop_congr hmask, Worker.refine, hs, he, hz, hnz]
  rfl

/-- **The partitions of a round.**  When one worker has all batches, whatever the interleaving is,
the refinement that a worker starts ends with a partition that the batch has in a round whose
workers have window variables of their own. -/
theorem refined_of_one_owner (cub : Cub) (sums : SumsOf) (hmax : 1 ≤ c.max_batch_edge_n)
    (hone : ∀ k < batch_count c.edges.length c.max_batch_edge_n, owner k = owner 0)
    (h0 : Start owner (batch_count c.edges.length c.max_batch_edge_n) cfg)
    (h : Reach (exec c) cfg cfg') {p : Fin max_gpus} (hl : (cfg'.own p).line = .refine)
    {fuel : ℕ} {d : Device} {r : Refine}
    (hr : (cfg'.own p).refine cub sums c fuel d = some r) :
    Refined cub sums c.max_batch_edge_n c.node_n c.edges anyDevice (cfg'.own p).batch r.dev.d_w := by
  obtain ⟨win, hwin, heq⟩ := (ownBatch_of_one_owner hmax hone h0 h p).refine_eq hl cub sums
  intro win' hwin'
  obtain rfl : win = win' := Option.some.inj (hwin.symm.trans hwin')
  exact ⟨fuel, d, r, trivial, (heq fuel d).symm.trans hr, rfl⟩

/-- Two edges in batches of one edge. -/
def pairEnv : Env := ⟨1, 2, [⟨0, 0, 1⟩, ⟨1, 0, 1⟩]⟩

/-- A batch for each of two workers. -/
def oneEach (batch : ℕ) : Fin 2 := ⟨batch % 2, Nat.mod_lt _ (by decide)⟩

theorem ownBatch_iff_pairEnv :
    (∀ cfg cfg', Start (fun _ => (0 : Fin 2)) (batch_count pairEnv.edges.length
        pairEnv.max_batch_edge_n) cfg →
      Reach (exec pairEnv) cfg cfg' → ∀ p, OwnBatch pairEnv (cfg'.own p)) ↔
      ∀ k < batch_count pairEnv.edges.length pairEnv.max_batch_edge_n, (0 : Fin 2) = 0 :=
  ownBatch_iff pairEnv (fun _ => 0) (by decide)

/-- Worker `1` scans its edge, worker `0` scans its own; then worker `1` sets the end, and worker
`0` reads the start and the end. -/
def disturbing : List (Fin 2) := List.replicate 13 1 ++ List.replicate 14 0 ++ [1, 0, 0]

/-- **The workers disturb each other**: worker `0` commits both edges, and its window is the first
edge. -/
theorem pairEnv_disturbed :
    committed ((disturbing.foldl (Config.step (exec pairEnv)) (startOf oneEach 2)).own 0) =
        some (0, 2) ∧
      (select_window 1 2 pairEnv.edges 0).map (fun win => (win.batch_start, win.batch_end)) =
        some (0, 1) ∧
      ¬ ∀ cfg cfg', Start oneEach (batch_count pairEnv.edges.length pairEnv.max_batch_edge_n) cfg →
        Reach (exec pairEnv) cfg cfg' → ∀ p, OwnBatch pairEnv (cfg'.own p) := by
  set cfg := disturbing.foldl (Config.step (exec pairEnv)) (startOf oneEach 2) with hcfg
  have hread : committed (cfg.own 0) = some (0, 2) ∧ (cfg.own 0).line = .skip ∧
      (cfg.own 0).batch = 0 := by decide +kernel
  have hown : (select_window 1 2 pairEnv.edges 0).map
      (fun win => (win.batch_start, win.batch_end)) = some (0, 1) := by decide +kernel
  refine ⟨hread.1, hown, fun h => ?_⟩
  have hwin := (h _ cfg (start_startOf oneEach 2) (reach_foldl _ _) 0).window hread.2.1
  rw [hread.1, hread.2.2] at hwin
  exact absurd (hwin.trans hown) (by decide)

end Rbsc.Workers
