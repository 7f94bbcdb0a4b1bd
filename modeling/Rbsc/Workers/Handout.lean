import Rbsc.Workers.Parallel

/-!
# The labels of a round with several workers

Whatever the schedule, the labels of the parallel region are a labelling by batch and local label
(`Moves.labelled`), so that a round with several workers satisfies the specification of a round with
one (`Round.spec`).

A node that has its label in the map of its batch, but not yet in `w`, counts as labelled: the
invariant `RegionInv` is about `w` as it will be (`Ghost`).
-/

namespace Rbsc.Workers

open Arrays DoWhile Gpu Host Interleave Labelling

/-- The windows of the round. -/
abbrev Env.windows (c : Env) : ℕ → Option Window :=
  Host.windows c.max_batch_edge_n c.node_n c.edges

/-- The number of batches of the round. -/
abbrev Env.batches (c : Env) : ℕ := batch_count c.edges.length c.max_batch_edge_n

/-- The node has a label, if it is one of the task's batch. -/
def Task.passed (t : Task) (v : ℕ) : Prop := v < t.i ∨ v = t.i ∧ t.line = .write

theorem Task.passed_label {t : Task} (h : t.line = .label) (v : ℕ) : t.passed v ↔ v < t.i := by
  simp [Task.passed, h]

theorem Task.passed_write {t : Task} (h : t.line = .write) (v : ℕ) : t.passed v ↔ v < t.i + 1 := by
  rw [Nat.lt_succ_iff_lt_or_eq]
  simp [Task.passed, h]

/-- What the invariant says more than the variables do. -/
structure Ghost where
  /-- What the refinements of the batches have stopped at. -/
  part : ℕ → Arr Word
  /-- The nodes that have a label. -/
  named : Set ℕ
  /-- Their labels. -/
  w : Arr ℕ

/-- The key of a node: its batch and its local label. -/
def Ghost.key (G : Ghost) (c : Env) : ℕ → NodeKey := nodeKey c.windows G.part c.batches

/-- A batch between its refinement and its end. -/
structure TaskInv (c : Env) (G : Ghost) (t : Task) : Prop where
  lt : t.batch < c.batches
  window : ∃ win, c.windows t.batch = some win ∧ t.current_batch_mask = win.batch_mask
  partition : t.current_batch_partition = G.part t.batch
  le : t.i ≤ c.node_n
  /-- Its nodes are labelled up to `i`. -/
  named_iff : ∀ v < c.node_n, InBatch c.windows t.batch v → (v ∈ G.named ↔ t.passed v)
  /-- Its map holds the labels of its local labels. -/
  table : Table c.node_n (G.key c) G.named G.w t.batch t.current_label_map
  /-- Before the write, the map holds the label of node `i`. -/
  write : t.line = .write → t.i < c.node_n ∧ InBatch c.windows t.batch t.i ∧
    G.w t.i = t.current_label_map (localLabel t.current_batch_partition t.i)

/-- **The invariant of the parallel region.** -/
structure RegionInv {max_gpus : ℕ} (cub : Cub) (sums : SumsOf) (Q : ℕ → Device → Prop) (c : Env)
    (G : Ghost) (cfg : Config (Fin max_gpus) Pool Thread) : Prop where
  todo_lt : ∀ k ∈ cfg.shared.todo, k < c.batches
  /-- The partitions of the batches that are not left are those their refinements stopped at. -/
  refined : ∀ k < c.batches, k ∉ cfg.shared.todo →
    Refined cub sums c.max_batch_edge_n c.node_n c.edges Q k (G.part k)
  labelled : Labelled c.node_n (G.key c) G.named G.w cfg.shared.new_node_n
  /-- Only nodes of these batches have labels. -/
  named : ∀ v ∈ G.named, ∃ k < c.batches, k ∉ cfg.shared.todo ∧ InBatch c.windows k v
  task : ∀ p t, (cfg.own p).task = some t → t.batch ∉ cfg.shared.todo ∧ TaskInv c G t
  /-- No two workers have one batch. -/
  distinct : ∀ p q t t', (cfg.own p).task = some t → (cfg.own q).task = some t' →
    t.batch = t'.batch → p = q
  /-- The batches that are done have labelled their nodes. -/
  finished : ∀ k < c.batches, k ∉ cfg.shared.todo →
    (∀ p t, (cfg.own p).task = some t → t.batch ≠ k) →
    ∀ v < c.node_n, InBatch c.windows k v → v ∈ G.named
  /-- The labels are in `w`, but for those that a worker is about to write. -/
  written : ∀ v < c.node_n,
    (∀ p t, (cfg.own p).task = some t → t.line = .write → t.i ≠ v) → cfg.shared.w v = G.w v

section Step

variable {max_gpus : ℕ} {cub : Cub} {sums : SumsOf} {Q : ℕ → Device → Prop} {c : Env} {G : Ghost}
  {cfg : Config (Fin max_gpus) Pool Thread} {p : Fin max_gpus}

/-- The tasks after a move of worker `p`. -/
theorem task_update {l : Thread} {q : Fin max_gpus} {t : Task} :
    (Function.update cfg.own p l q).task = some t ↔
      q = p ∧ l.task = some t ∨ q ≠ p ∧ (cfg.own q).task = some t := by
  by_cases hq : q = p
  · subst hq
    simp
  · simp [hq]

theorem TaskInv.off_iff {t : Task} (h : TaskInv c G t) (v : ℕ) :
    t.current_batch_mask v = .OFF_BATCH ↔ ¬ InBatch c.windows t.batch v := by
  obtain ⟨win, hwin, hm⟩ := h.window
  rw [hm]
  constructor
  · rintro hoff ⟨win', hwin', hm'⟩
    cases hwin.symm.trans hwin'
    exact hm' hoff
  · exact fun hno => not_not.1 fun hm' => hno ⟨win, hwin, hm'⟩

/-- The key of a node of the task's batch. -/
theorem TaskInv.key {t : Task} (h : TaskInv c G t)
    (hd : DisjointBatches c.node_n c.windows c.batches) {v : ℕ} (hv : v < c.node_n)
    (hin : InBatch c.windows t.batch v) :
    G.key c v = .inl (t.batch, localLabel t.current_batch_partition v) := by
  rw [Ghost.key, nodeKey_of_inBatch hd hv h.lt hin, h.partition]

/-! ## Taking a batch -/

/-- A skipped batch has no nodes. -/
theorem RegionInv.skip (h : RegionInv cub sums Q c G cfg) {d : Device} {k : ℕ}
    (hp : cfg.own p = ⟨d, none⟩) (hwin : c.windows k = none) :
    RegionInv cub sums Q c G
      ⟨{ cfg.shared with todo := cfg.shared.todo.erase k }, Function.update cfg.own p ⟨d, none⟩⟩ := by
  have hno : ∀ v, ¬ InBatch c.windows k v := by
    rintro v ⟨win, hw, -⟩
    exact absurd (hw.symm.trans hwin) (by simp)
  rw [← hp, Function.update_eq_self]
  have hout : ∀ j, j ∉ cfg.shared.todo.erase k → j ≠ k → j ∉ cfg.shared.todo := fun j hj hjk hj' =>
    hj (Finset.mem_erase.2 ⟨hjk, hj'⟩)
  refine ⟨fun j hj => h.todo_lt j (Finset.mem_of_mem_erase hj), fun j hjB hj => ?_, h.labelled,
    fun v hv => ?_, fun q t ht => ?_, h.distinct, fun j hjB hj hjt v hv hin => ?_, h.written⟩
  · by_cases hjk : j = k
    · intro win hw
      rw [hjk] at hw
      exact absurd (hw.symm.trans hwin) (by simp)
    · exact h.refined j hjB (hout j hj hjk)
  · obtain ⟨j, hjB, hj, hin⟩ := h.named v hv
    exact ⟨j, hjB, fun hj' => hj (Finset.mem_of_mem_erase hj'), hin⟩
  · obtain ⟨hb, ht⟩ := h.task q t ht
    exact ⟨fun hb' => hb (Finset.mem_of_mem_erase hb'), ht⟩
  · have hjk : j ≠ k := fun hjk => hno v (hjk ▸ hin)
    exact h.finished j hjB (hout j hj hjk) hjt v hv hin

/-- Another partition for a batch that is left does not change the keys of the labelled nodes. -/
theorem RegionInv.key_update (h : RegionInv cub sums Q c G cfg)
    (hd : DisjointBatches c.node_n c.windows c.batches) {k : ℕ} (hk : k ∈ cfg.shared.todo)
    (part : Arr Word) {v : ℕ} (hv : v ∈ G.named) :
    Ghost.key { G with part := Function.update G.part k part } c v = G.key c v := by
  obtain ⟨j, hjB, hj, hin⟩ := h.named v hv
  have hjk : j ≠ k := fun hjk => hj (hjk ▸ hk)
  rw [Ghost.key, Ghost.key, nodeKey_of_inBatch hd (h.labelled.mem_lt v hv) hjB hin,
    nodeKey_of_inBatch hd (h.labelled.mem_lt v hv) hjB hin]
  dsimp only
  rw [Function.update_of_ne hjk]

/-- **A worker takes a batch** and refines its window. -/
theorem RegionInv.refine (h : RegionInv cub sums Q c G cfg)
    (hd : DisjointBatches c.node_n c.windows c.batches) {d : Device} {k fuel : ℕ} {win : Window}
    {r : Refine} (hp : cfg.own p = ⟨d, none⟩) (hk : k ∈ cfg.shared.todo)
    (hwin : c.windows k = some win) (hQ : Q k d)
    (hr : refine_loop cub (batchSums sums c.node_n c.edges k win) c.node_n win.batch_mask
      win.off_batch_node_n fuel d = some r) :
    RegionInv cub sums Q c { G with part := Function.update G.part k r.dev.d_w }
      ⟨{ cfg.shared with todo := cfg.shared.todo.erase k },
        Function.update cfg.own p ⟨r.dev, some (task_init c.node_n k win r.dev)⟩⟩ := by
  set G' : Ghost := { G with part := Function.update G.part k r.dev.d_w } with hG'
  have hkey : ∀ v ∈ G.named, G'.key c v = G.key c v := fun v hv => h.key_update hd hk _ hv
  have hout : ∀ j, j ∉ cfg.shared.todo.erase k → j ≠ k → j ∉ cfg.shared.todo := fun j hj hjk hj' =>
    hj (Finset.mem_erase.2 ⟨hjk, hj'⟩)
  -- no node of the batch has a label
  have hfresh : ∀ v ∈ G.named, ¬ InBatch c.windows k v := fun v hv hin => by
    obtain ⟨j, hjB, hj, hin'⟩ := h.named v hv
    rw [hd v (h.labelled.mem_lt v hv) j hjB k (h.todo_lt k hk) hin' hin] at hj
    exact hj hk
  -- nor has any other worker the batch
  have hold : ∀ q t, q ≠ p ∧ (cfg.own q).task = some t → t.batch ≠ k := fun q t ht hb =>
    (h.task q t ht.2).1 (hb ▸ hk)
  have hnone : ∀ t, (cfg.own p).task = some t → False := fun t ht => by
    rw [hp] at ht
    cases ht
  refine ⟨fun j hj => h.todo_lt j (Finset.mem_of_mem_erase hj), fun j hjB hj => ?_,
    h.labelled.congr_key fun u hu v hv => ?_, fun v hv => ?_, fun q t ht => ?_,
    fun q q' t t' ht ht' hb => ?_, fun j hjB hj hjt v hv hin => ?_, fun v hv hvw => ?_⟩
  · by_cases hjk : j = k
    · subst hjk
      intro win' hw
      cases hwin.symm.trans hw
      exact ⟨fuel, d, r, hQ, hr, Function.update_self ..⟩
    · change Refined _ _ _ _ _ _ _ (Function.update G.part k r.dev.d_w j)
      rw [Function.update_of_ne hjk]
      exact h.refined j hjB (hout j hj hjk)
  · rw [hkey u hu, hkey v hv]
  · obtain ⟨j, hjB, hj, hin⟩ := h.named v hv
    exact ⟨j, hjB, fun hj' => hj (Finset.mem_of_mem_erase hj'), hin⟩
  · rcases task_update.1 ht with ⟨-, ht⟩ | ht
    · cases ht
      have hpart : r.dev.d_w = G'.part k := by
        change r.dev.d_w = Function.update G.part k r.dev.d_w k
        rw [Function.update_self]
      refine ⟨Finset.notMem_erase k _, h.todo_lt k hk, ⟨win, hwin, rfl⟩, hpart, Nat.zero_le _,
        fun v hv hin => ?_, ?_, fun hl => ?_⟩
      · rw [Task.passed_label rfl]
        exact iff_of_false (fun hvn => hfresh v hvn hin) (Nat.not_lt_zero v)
      · refine Table.init fun v hv l hl => ?_
        obtain ⟨j, hjB, hj, hin⟩ := h.named v hv
        rw [hkey v hv, Ghost.key, nodeKey_of_inBatch hd (h.labelled.mem_lt v hv) hjB hin] at hl
        have hjk : j = k := (Prod.ext_iff.1 (Sum.inl.inj hl)).1
        exact hj (hjk ▸ hk)
      · cases hl
    · obtain ⟨hb, htask⟩ := h.task q t ht.2
      refine ⟨fun hb' => hb (Finset.mem_of_mem_erase hb'), htask.lt, htask.window, ?_, htask.le,
        htask.named_iff, fun l hl => (htask.table l hl).congr_key hkey, htask.write⟩
      rw [htask.partition]
      exact (Function.update_of_ne (hold q t ht) _ _).symm
  · rcases task_update.1 ht with ⟨hqp, ht⟩ | ht <;> rcases task_update.1 ht' with ⟨hqp', ht'⟩ | ht'
    · rw [hqp, hqp']
    · cases ht
      exact absurd hb.symm (hold q' t' ht')
    · cases ht'
      exact absurd hb (hold q t ht)
    · exact h.distinct q q' t t' ht.2 ht'.2 hb
  · have hjk : j ≠ k := fun hjk => hjt p _ (task_update.2 (Or.inl ⟨rfl, rfl⟩)) hjk.symm
    refine h.finished j hjB (hout j hj hjk) (fun q t ht => ?_) v hv hin
    exact hjt q t (task_update.2 (Or.inr ⟨fun hq => hnone t (hq ▸ ht), ht⟩))
  · refine h.written v hv fun q t ht => ?_
    exact hvw q t (task_update.2 (Or.inr ⟨fun hq => hnone t (hq ▸ ht), ht⟩))

/-! ## Handing out labels -/

/-- A move of a worker within its batch: what is left to check of the invariant. -/
theorem RegionInv.advance (h : RegionInv cub sums Q c G cfg) {d : Device} {t t' : Task}
    {s' : Pool} {G' : Ghost} (hp : cfg.own p = ⟨d, some t⟩)
    (htodo : s'.todo = cfg.shared.todo) (hpart : G'.part = G.part)
    (hb : t'.batch = t.batch) (hlab : Labelled c.node_n (G'.key c) G'.named G'.w s'.new_node_n)
    (hsub : G.named ⊆ G'.named)
    (hnew : ∀ v ∈ G'.named, v ∈ G.named ∨ InBatch c.windows t.batch v) (hself : TaskInv c G' t')
    (hother : ∀ t₁, TaskInv c G t₁ → t₁.batch ≠ t.batch → TaskInv c G' t₁)
    (hw : ∀ v < c.node_n, (t'.line = .write → t'.i ≠ v) →
      (∀ q ≠ p, ∀ t₁, (cfg.own q).task = some t₁ → t₁.line = .write → t₁.i ≠ v) →
      s'.w v = G'.w v) :
    RegionInv cub sums Q c G' ⟨s', Function.update cfg.own p ⟨d, some t'⟩⟩ := by
  have ht : (cfg.own p).task = some t := by rw [hp]
  have htask := h.task p t ht
  have hne : ∀ q t₁, q ≠ p ∧ (cfg.own q).task = some t₁ → t₁.batch ≠ t.batch := fun q t₁ hq hb =>
    hq.1 (h.distinct q p t₁ t hq.2 ht hb)
  have hself' : (Function.update cfg.own p ⟨d, some t'⟩ p).task = some t' :=
    task_update.2 (Or.inl ⟨rfl, rfl⟩)
  refine ⟨htodo ▸ h.todo_lt, ?_, hlab, fun v hv => ?_, fun q t₁ ht₁ => ?_,
    fun q q' t₁ t₂ ht₁ ht₂ hb₁ => ?_, fun k hkB hk hkt v hv hin => ?_, fun v hv hvw => ?_⟩
  · rw [hpart]
    exact htodo ▸ h.refined
  · rw [htodo]
    rcases hnew v hv with hv | hin
    · exact h.named v hv
    · exact ⟨t.batch, htask.2.lt, htask.1, hin⟩
  · rw [htodo]
    rcases task_update.1 ht₁ with ⟨-, ht₁⟩ | hq
    · cases ht₁
      exact ⟨hb ▸ htask.1, hself⟩
    · obtain ⟨hb₁, ht₁⟩ := h.task q t₁ hq.2
      exact ⟨hb₁, hother t₁ ht₁ (hne q t₁ hq)⟩
  · rcases task_update.1 ht₁ with ⟨hq, ht₁⟩ | hq <;> rcases task_update.1 ht₂ with ⟨hq', ht₂⟩ | hq'
    · rw [hq, hq']
    · cases ht₁
      exact absurd (hb₁.symm.trans hb) (hne q' t₂ hq')
    · cases ht₂
      exact absurd (hb₁.trans hb) (hne q t₁ hq)
    · exact h.distinct q q' t₁ t₂ hq.2 hq'.2 hb₁
  · rw [htodo] at hk
    refine hsub (h.finished k hkB hk (fun q t₁ ht₁ => ?_) v hv hin)
    by_cases hq : q = p
    · subst hq
      cases ht.symm.trans ht₁
      exact hb ▸ hkt q t' hself'
    · exact hkt q t₁ (task_update.2 (Or.inr ⟨hq, ht₁⟩))
  · exact hw v hv (hvw p t' hself') fun q hq t₁ ht₁ =>
      hvw q t₁ (task_update.2 (Or.inr ⟨hq, ht₁⟩))

/-- A node off the batch. -/
theorem RegionInv.off (h : RegionInv cub sums Q c G cfg) {d : Device} {t : Task}
    (hp : cfg.own p = ⟨d, some t⟩) (hl : t.line = .label) (hi : t.i < c.node_n)
    (hoff : t.current_batch_mask t.i = .OFF_BATCH) :
    RegionInv cub sums Q c G
      ⟨cfg.shared, Function.update cfg.own p ⟨d, some { t with i := t.i + 1 }⟩⟩ := by
  obtain ⟨-, htask⟩ := h.task p t (by rw [hp])
  refine h.advance hp rfl rfl rfl h.labelled subset_rfl (fun v hv => Or.inl hv) ?_
    (fun _ ht _ => ht) fun v hv _ hrest => h.written v hv fun q t₁ ht₁ hl₁ => ?_
  · refine ⟨htask.lt, htask.window, htask.partition, hi, fun v hv hin => ?_, htask.table,
      fun hl' => absurd (hl.symm.trans hl') (by decide)⟩
    have hvi : v ≠ t.i := fun hvi => (htask.off_iff t.i).1 hoff (hvi ▸ hin)
    rw [htask.named_iff v hv hin, Task.passed_label hl]
    refine Iff.trans ?_ (Task.passed_label (t := { t with i := t.i + 1 }) hl v).symm
    dsimp only
    omega
  · by_cases hq : q = p
    · subst hq
      rw [hp] at ht₁
      cases ht₁
      exact absurd (hl.symm.trans hl₁) (by decide)
    · exact hrest q hq t₁ ht₁ hl₁

/-- **A node of the batch gets its label**, an old one or, in the critical section, a new one. -/
theorem RegionInv.label (h : RegionInv cub sums Q c G cfg)
    (hd : DisjointBatches c.node_n c.windows c.batches) (hn : c.node_n < 2 ^ 32) {d : Device}
    {t : Task} (hp : cfg.own p = ⟨d, some t⟩) (hl : t.line = .label) (hi : t.i < c.node_n)
    (hoff : t.current_batch_mask t.i ≠ .OFF_BATCH)
    (hlt : localLabel t.current_batch_partition t.i < c.node_n) {x : Labels}
    (hx : x = label_step c.node_n t.current_batch_mask t.current_batch_partition
      ⟨G.w, cfg.shared.new_node_n, t.current_label_map⟩ t.i) :
    RegionInv cub sums Q c { G with named := insert t.i G.named, w := x.w }
      ⟨{ cfg.shared with new_node_n := x.new_node_n }, Function.update cfg.own p
        ⟨d, some { t with current_label_map := x.label_map, line := .write }⟩⟩ := by
  obtain ⟨-, htask⟩ := h.task p t (by rw [hp])
  have hin : InBatch c.windows t.batch t.i := not_not.1 fun hno => hoff ((htask.off_iff t.i).2 hno)
  have hnot : t.i ∉ G.named := fun hmem =>
    lt_irrefl _ ((Task.passed_label hl _).1 ((htask.named_iff t.i hi hin).1 hmem))
  have hkey := htask.key hd hi hin
  obtain ⟨hlab, htab⟩ := label_step_spec (p := t.current_batch_partition)
    (s := ⟨G.w, cfg.shared.new_node_n, t.current_label_map⟩) hn h.labelled htask.table hi hnot hoff
    hkey hlt
  rw [← hx] at hlab htab
  have hxw : x.w = G.w.set t.i (newLabel c.node_n t.current_batch_partition
      ⟨G.w, cfg.shared.new_node_n, t.current_label_map⟩ t.i) := by rw [hx, label_step_w hoff]
  have hstay : ∀ v, v ≠ t.i → x.w v = G.w v := fun v hv => by rw [hxw, Arr.set_of_ne _ _ hv]
  refine h.advance hp rfl rfl rfl hlab (Set.subset_insert _ _) (fun v hv => ?_) ?_
    (fun t₁ ht₁ hb => ?_) fun v hv hvi hrest => ?_
  · rcases hv with rfl | hv
    · exact Or.inr hin
    · exact Or.inl hv
  · refine ⟨htask.lt, htask.window, htask.partition, htask.le, fun v hv hvin => ?_, htab,
      fun _ => ⟨hi, hin, ?_⟩⟩
    · rw [Set.mem_insert_iff, htask.named_iff v hv hvin, Task.passed_label hl,
        Task.passed_write rfl]
      dsimp only
      omega
    · -- the map holds the label that the node got
      have := label_step_self (p := t.current_batch_partition)
        (s := ⟨G.w, cfg.shared.new_node_n, t.current_label_map⟩) (n := c.node_n) hoff
      rwa [← hx] at this
  · refine ⟨ht₁.lt, ht₁.window, ht₁.partition, ht₁.le, fun v hv hvin => ?_, ?_, fun hl₁ => ?_⟩
    · have hvi : v ≠ t.i := fun hvi =>
        hb (hd v hv t₁.batch ht₁.lt t.batch htask.lt hvin (hvi ▸ hin))
      rw [Set.mem_insert_iff, ht₁.named_iff v hv hvin]
      exact or_iff_right hvi
    · dsimp only
      rw [hxw]
      exact ht₁.table.step_of_ne hnot hkey (Ne.symm hb)
    · obtain ⟨hi₁, hin₁, hw₁⟩ := ht₁.write hl₁
      have hii : t₁.i ≠ t.i := fun hii =>
        hb (hd t₁.i hi₁ t₁.batch ht₁.lt t.batch htask.lt hin₁ (hii ▸ hin))
      exact ⟨hi₁, hin₁, (hstay _ hii).trans hw₁⟩
  · have hvi : v ≠ t.i := fun h => hvi rfl h.symm
    refine (h.written v hv fun q t₁ ht₁ hl₁ => ?_).trans (hstay v hvi).symm
    by_cases hq : q = p
    · subst hq
      rw [hp] at ht₁
      cases ht₁
      exact absurd (hl.symm.trans hl₁) (by decide)
    · exact hrest q hq t₁ ht₁ hl₁

/-- The label is written to `w`. -/
theorem RegionInv.write (h : RegionInv cub sums Q c G cfg) {d : Device} {t : Task}
    (hp : cfg.own p = ⟨d, some t⟩) (hl : t.line = .write) :
    RegionInv cub sums Q c G
      ⟨{ cfg.shared with
          w := cfg.shared.w.set t.i
            (t.current_label_map (localLabel t.current_batch_partition t.i)) },
        Function.update cfg.own p ⟨d, some { t with i := t.i + 1, line := .label }⟩⟩ := by
  obtain ⟨-, htask⟩ := h.task p t (by rw [hp])
  obtain ⟨hi, hin, hw⟩ := htask.write hl
  refine h.advance hp rfl rfl rfl h.labelled subset_rfl (fun v hv => Or.inl hv) ?_
    (fun _ ht _ => ht) fun v hv _ hrest => ?_
  · refine ⟨htask.lt, htask.window, htask.partition, hi, fun v hv hvin => ?_, htask.table,
      fun hl' => ?_⟩
    · rw [htask.named_iff v hv hvin, Task.passed_write hl, Task.passed_label rfl]
    · cases hl'
  · dsimp only
    rw [Arr.set_apply]
    split_ifs with hvi
    · rw [hvi, hw]
    · refine h.written v hv fun q t₁ ht₁ hl₁ => ?_
      by_cases hq : q = p
      · subst hq
        rw [hp] at ht₁
        cases ht₁
        exact fun hiv => hvi hiv.symm
      · exact hrest q hq t₁ ht₁ hl₁

/-- **The end of a batch.** -/
theorem RegionInv.finish (h : RegionInv cub sums Q c G cfg) {d : Device} {t : Task}
    (hp : cfg.own p = ⟨d, some t⟩) (hl : t.line = .label) (hi : ¬ t.i < c.node_n) :
    RegionInv cub sums Q c G ⟨cfg.shared, Function.update cfg.own p ⟨d, none⟩⟩ := by
  have ht : (cfg.own p).task = some t := by rw [hp]
  obtain ⟨-, htask⟩ := h.task p t ht
  have hold : ∀ q t₁, (Function.update cfg.own p ⟨d, none⟩ q).task = some t₁ →
      (cfg.own q).task = some t₁ := fun q t₁ ht₁ => by
    rcases task_update.1 ht₁ with ⟨-, ht₁⟩ | hq
    · cases ht₁
    · exact hq.2
  refine ⟨h.todo_lt, h.refined, h.labelled, h.named, fun q t₁ ht₁ => h.task q t₁ (hold q t₁ ht₁),
    fun q q' t₁ t₂ ht₁ ht₂ => h.distinct q q' t₁ t₂ (hold q t₁ ht₁) (hold q' t₂ ht₂),
    fun k hkB hk hkt v hv hin => ?_, fun v hv hvw => h.written v hv fun q t₁ ht₁ hl₁ => ?_⟩
  · by_cases hkb : k = t.batch
    · subst hkb
      refine (htask.named_iff v hv hin).2 (Or.inl ?_)
      omega
    · refine h.finished k hkB hk (fun q t₁ ht₁ => ?_) v hv hin
      by_cases hq : q = p
      · subst hq
        cases ht.symm.trans ht₁
        exact Ne.symm hkb
      · exact hkt q t₁ (task_update.2 (Or.inr ⟨hq, ht₁⟩))
  · by_cases hq : q = p
    · subst hq
      cases ht.symm.trans ht₁
      exact absurd (hl.symm.trans hl₁) (by decide)
    · exact hvw q t₁ (task_update.2 (Or.inr ⟨hq, ht₁⟩)) hl₁

/-! ## One move -/

theorem label_exec_off {n : ℕ} {s : Pool} {t : Task} (hl : t.line = .label) (hi : t.i < n)
    (hoff : t.current_batch_mask t.i = .OFF_BATCH) :
    label_exec n s t = (s, some { t with i := t.i + 1 }) := by
  rw [label_exec, hl]
  dsimp only
  rw [if_pos hi, if_pos hoff]

/-- The test and the critical section do what `label_step` does, but for the write. -/
theorem label_exec_label {n : ℕ} {s : Pool} {t : Task} (hl : t.line = .label) (hi : t.i < n)
    (hoff : t.current_batch_mask t.i ≠ .OFF_BATCH) (w : Arr ℕ) {x : Labels}
    (hx : x = label_step n t.current_batch_mask t.current_batch_partition
      ⟨w, s.new_node_n, t.current_label_map⟩ t.i) :
    label_exec n s t = ({ s with new_node_n := x.new_node_n },
      some { t with current_label_map := x.label_map, line := .write }) := by
  rw [hx, label_exec, hl, label_step]
  dsimp only
  rw [if_pos hi, if_neg hoff, if_neg hoff]
  split_ifs <;> rfl

theorem label_exec_finish {n : ℕ} {s : Pool} {t : Task} (hl : t.line = .label) (hi : ¬ t.i < n) :
    label_exec n s t = (s, none) := by
  rw [label_exec, hl]
  dsimp only
  rw [if_neg hi]

theorem label_exec_write {n : ℕ} {s : Pool} {t : Task} (hl : t.line = .write) :
    label_exec n s t = ({ s with
        w := s.w.set t.i (t.current_label_map (localLabel t.current_batch_partition t.i)) },
      some { t with i := t.i + 1, line := .label }) := by
  rw [label_exec, hl]
  rfl

/-- **Every move keeps the invariant.** -/
theorem RegionInv.step (h : RegionInv cub sums Q c G cfg)
    (hd : DisjointBatches c.node_n c.windows c.batches) (hn : c.node_n < 2 ^ 32)
    (hsmall : SmallParts cub sums c.max_batch_edge_n c.node_n c.edges Q) {s : Pool} {l : Thread}
    (hm : Exec cub sums Q c cfg.shared (cfg.own p) s l) :
    ∃ G', RegionInv cub sums Q c G' ⟨s, Function.update cfg.own p l⟩ := by
  generalize hp : cfg.own p = x at hm
  cases hm with
  | skip hk hwin => exact ⟨G, h.skip hp hwin⟩
  | refine hk hwin hQ hr => exact ⟨_, h.refine hd hp hk hwin hQ hr⟩
  | @label d t =>
    obtain ⟨hb, htask⟩ := h.task p t (by rw [hp])
    cases hl : t.line with
    | label =>
      by_cases hi : t.i < c.node_n
      · by_cases hoff : t.current_batch_mask t.i = .OFF_BATCH
        · rw [label_exec_off hl hi hoff]
          exact ⟨G, h.off hp hl hi hoff⟩
        · obtain ⟨win, hwin, -⟩ := htask.window
          obtain ⟨fuel, d', r, hQ, hr, hpart⟩ := h.refined t.batch htask.lt hb win hwin
          have hlt : localLabel t.current_batch_partition t.i < c.node_n := by
            rw [htask.partition, hpart]
            exact hsmall t.batch win hwin fuel d' r hQ hr t.i hi
          rw [label_exec_label hl hi hoff G.w rfl]
          exact ⟨_, h.label hd hn hp hl hi hoff hlt rfl⟩
      · rw [label_exec_finish hl hi]
        exact ⟨G, h.finish hp hl hi⟩
    | write =>
      rw [label_exec_write hl]
      exact ⟨G, h.write hp hl⟩

end Step

/-! ## The parallel region -/

section Region

variable {max_gpus : ℕ} {cub : Cub} {sums : SumsOf} {Q : ℕ → Device → Prop} {max : ℕ}
  {s s' : State max_gpus} {cfg : Config (Fin max_gpus) Pool Thread}

/-- Before the parallel region nothing is labelled. -/
theorem RegionInv.init (cub : Cub) (sums : SumsOf) (Q : ℕ → Device → Prop) (max : ℕ)
    (s : State max_gpus) : RegionInv cub sums Q (env max s)
      ⟨fun _ => .const 0, ∅, (region_init max s).shared.w⟩ (region_init max s) where
  todo_lt _ hk := Finset.mem_range.1 hk
  refined _ hkB hk := absurd (Finset.mem_range.2 hkB) hk
  labelled := Labelled.empty fun _ hv => fill_of_lt _ _ hv
  named _ hv := hv.elim
  task _ _ ht := by cases ht
  distinct _ _ _ _ ht := by cases ht
  finished _ hkB hk := absurd (Finset.mem_range.2 hkB) hk
  written _ _ _ := rfl

/-- **The labels of the parallel region**, on any schedule. -/
theorem Moves.labelled (hlt : s.new_node_n < 2 ^ 32) (hgr : Grouped s.edges) (hmax : 1 ≤ max)
    (hsmall : SmallParts cub sums max s.new_node_n s.edges Q)
    (h : Moves (Exec cub sums Q (env max s)) (region_init max s) cfg) (hfin : Finished cfg) :
    ∃ part : ℕ → Arr Word,
      (∀ k < batch_count s.edges.length max,
        Refined cub sums max s.new_node_n s.edges Q k (part k)) ∧
      Labelled s.new_node_n
        (nodeKey (windows max s.new_node_n s.edges) part (batch_count s.edges.length max))
        (labelledNodes s.new_node_n (windows max s.new_node_n s.edges)
          (batch_count s.edges.length max)) cfg.shared.w cfg.shared.new_node_n := by
  have hd : DisjointBatches (env max s).node_n (env max s).windows (env max s).batches :=
    disjoint_windows hgr hmax
  obtain ⟨G, hG⟩ : ∃ G, RegionInv cub sums Q (env max s) G cfg :=
    h.inv (I := fun cfg => ∃ G, RegionInv cub sums Q (env max s) G cfg)
      ⟨_, RegionInv.init cub sums Q max s⟩
      fun _ _ _ _ ⟨_, hG⟩ hm => hG.step hd hlt hsmall hm
  obtain ⟨htodo, hidle⟩ := hfin
  have hno : ∀ p t, (cfg.own p).task ≠ some t := fun p t ht => by
    rw [hidle p] at ht
    cases ht
  have hleft : ∀ k, k ∉ cfg.shared.todo := fun k => by simp [htodo]
  have hnamed : G.named = labelledNodes s.new_node_n (windows max s.new_node_n s.edges)
      (batch_count s.edges.length max) := by
    ext v
    constructor
    · intro hv
      obtain ⟨k, hkB, -, hin⟩ := hG.named v hv
      exact ⟨hG.labelled.mem_lt v hv, k, hkB, hin⟩
    · rintro ⟨hv, k, hkB, hin⟩
      exact hG.finished k hkB (hleft k) (fun p t ht => absurd ht (hno p t)) v hv hin
  refine ⟨G.part, fun k hkB => hG.refined k hkB (hleft k), ?_⟩
  rw [← hnamed]
  exact hG.labelled.congr_w fun v hv => hG.written v hv fun p t ht => absurd ht (hno p t)

/-- **A round with several workers** meets the specification of a round with one. -/
theorem Round.spec (hlt : s.new_node_n < 2 ^ 32) (hgr : Grouped s.edges) (hne : s.edges ≠ [])
    (hmax : 1 ≤ max) (hsmall : SmallParts cub sums max s.new_node_n s.edges Q)
    (h : Round cub sums Q max s s') : RoundPost cub sums max Q s.host s'.host := by
  obtain ⟨cfg, hmoves, hfin, rfl⟩ := h
  obtain ⟨part, href, hlab⟩ := Moves.labelled hlt hgr hmax hsmall hmoves hfin
  unfold after_region
  dsimp only
  by_cases hb : 1 < batch_count s.edges.length max
  · rw [if_pos hb]
    refine ⟨rfl, rfl, roundSpec_fill_in hlt hgr hmax href hlab, ?_⟩
    change _ = if 1 < batch_count s.edges.length max then _ else _
    rw [if_pos hb]
    exact compact_eq _ _ hgr
  · rw [if_neg hb]
    rw [labelledNodes_single hgr hne hmax hb] at hlab
    exact ⟨rfl, rfl, ⟨part, href, hlab⟩, (if_neg hb).symm⟩

end Region

end Rbsc.Workers
