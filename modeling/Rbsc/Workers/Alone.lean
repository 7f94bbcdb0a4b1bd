import Rbsc.Workers.Model

/-!
# A worker that is not disturbed

The statements of a worker that no other writes into do what `select_window` says: the scan, the
test after it, the corrections of the mask and the counts, statement by statement (`Inv`,
`Inv.exec`).  So such a worker goes on with its own window (`Inv.ownBatch`).
-/

namespace Rbsc.Workers

open Arrays Gpu Host Interleave

/-- The masks agree on the nodes. -/
def Agree (n : ℕ) (m m' : Arr Mask) : Prop := ∀ v < n, m v = m' v

theorem Agree.set {n : ℕ} {m m' : Arr Mask} (h : Agree n m m') (i : ℕ) (x : Mask) :
    Agree n (m.set i x) (m'.set i x) := fun v hv => by
  rw [Arr.set_apply, Arr.set_apply, h v hv]

theorem scan_succ (node_n : ℕ) (edges : List Edge) (batch : ℕ) {lo i : ℕ} (h : lo ≤ i) :
    scan node_n edges batch lo (i + 1) = scan_step edges (scan node_n edges batch lo i) i := by
  rw [scan, scan, Nat.sub_add_comm h, List.range'_concat, List.foldl_append, Nat.one_mul,
    Nat.add_sub_cancel' h]
  rfl

theorem mark_off_succ (edges : List Edge) {lo i : ℕ} (h : lo ≤ i) (m : Arr Mask) :
    mark_off edges lo (i + 1) m = (mark_off edges lo i m).set (startAt edges i) .OFF_BATCH := by
  rw [mark_off, mark_off, Nat.sub_add_comm h, List.range'_concat, List.foldl_append, Nat.one_mul,
    Nat.add_sub_cancel' h]
  rfl

theorem mark_off_self (edges : List Edge) (lo : ℕ) (m : Arr Mask) : mark_off edges lo lo m = m := by
  rw [mark_off, Nat.sub_self]
  rfl

/-! ## The invariant -/

/-- The scan of a batch, up to edge `i`. -/
def scanTo (c : Env) (batch i : ℕ) : Scan :=
  scan c.node_n c.edges batch (rawStart c.max_batch_edge_n batch) i

/-- The scan of the whole raw range. -/
def scanned (c : Env) (batch : ℕ) : Scan :=
  scanTo c batch (rawEnd c.max_batch_edge_n c.edges batch)

/-- The end after the test that follows the scan. -/
def lastEnd (c : Env) (batch : ℕ) : Option ℕ :=
  finalEnd c.edges (rawEnd c.max_batch_edge_n c.edges batch) (scanned c batch)

/-- The mask of the window `[a, b)`. -/
def windowMask (c : Env) (batch a b : ℕ) : Arr Mask :=
  mark_off c.edges b c.edges.length (mark_off c.edges 0 a (scanned c batch).batch_mask)

/-- The number of nodes of a mask that are not off the batch. -/
def nodeCount (n : ℕ) (m : Arr Mask) : ℕ := (List.range n).countP fun i => m i ≠ .OFF_BATCH

theorem select_window_scanned (c : Env) (batch : ℕ) :
    select_window c.max_batch_edge_n c.node_n c.edges batch =
      match (scanned c batch).new_batch_start, lastEnd c batch with
      | some a, some b => some ⟨a, b, windowMask c batch a b,
          c.node_n - nodeCount c.node_n (windowMask c batch a b)⟩
      | _, _ => none := rfl

/-- The raw range of the batch. -/
structure InRaw (c : Env) (batch : ℕ) (batch_start batch_end : Option ℕ) : Prop where
  start_eq : batch_start = some (rawStart c.max_batch_edge_n batch)
  end_eq : batch_end = some (rawEnd c.max_batch_edge_n c.edges batch)

/-- The ends of the window of the batch. -/
structure Found (c : Env) (batch : ℕ) (batch_start batch_end : Option ℕ) : Prop where
  start_eq : batch_start = (scanned c batch).new_batch_start
  end_eq : batch_end = lastEnd c batch
  start_ne : batch_start ≠ none
  end_ne : batch_end ≠ none

/-- What holds before each statement. -/
def LineInv (c : Env) (s : Shared) (w : Worker) : Prop :=
  match w.line with
  | .next => True
  | .batch_start => True
  | .batch_end => w.batch_start = some (rawStart c.max_batch_edge_n w.batch)
  | .batch_node_n => InRaw c w.batch w.batch_start w.batch_end
  | .mask_init => InRaw c w.batch w.batch_start w.batch_end ∧ w.batch_node_n = 0 ∧ w.i ≤ c.node_n ∧
      Agree w.i w.current_batch_mask (mask_init c.node_n w.batch)
  | .start_not_init => InRaw c w.batch w.batch_start w.batch_end ∧ w.batch_node_n = 0 ∧
      Agree c.node_n w.current_batch_mask (mask_init c.node_n w.batch)
  | .end_not_init => InRaw c w.batch w.batch_start w.batch_end ∧ w.batch_node_n = 0 ∧
      Agree c.node_n w.current_batch_mask (mask_init c.node_n w.batch) ∧ s.new_batch_start = none
  | .scan_start => InRaw c w.batch w.batch_start w.batch_end ∧ w.batch_node_n = 0 ∧
      rawStart c.max_batch_edge_n w.batch ≤ w.i ∧ w.i ≤ rawEnd c.max_batch_edge_n c.edges w.batch ∧
      Agree c.node_n w.current_batch_mask (scanTo c w.batch w.i).batch_mask ∧
      s.new_batch_start = (scanTo c w.batch w.i).new_batch_start ∧
      s.new_batch_end = (scanTo c w.batch w.i).new_batch_end
  | .scan_end => InRaw c w.batch w.batch_start w.batch_end ∧ w.batch_node_n = 0 ∧
      rawStart c.max_batch_edge_n w.batch ≤ w.i ∧ w.i < rawEnd c.max_batch_edge_n c.edges w.batch ∧
      Agree c.node_n w.current_batch_mask (scanTo c w.batch w.i).batch_mask ∧
      s.new_batch_start = (scanTo c w.batch (w.i + 1)).new_batch_start ∧
      s.new_batch_end = (scanTo c w.batch w.i).new_batch_end
  | .scan_mask => InRaw c w.batch w.batch_start w.batch_end ∧ w.batch_node_n = 0 ∧
      rawStart c.max_batch_edge_n w.batch ≤ w.i ∧ w.i < rawEnd c.max_batch_edge_n c.edges w.batch ∧
      Agree c.node_n w.current_batch_mask (scanTo c w.batch w.i).batch_mask ∧
      s.new_batch_start = (scanTo c w.batch (w.i + 1)).new_batch_start ∧
      s.new_batch_end = (scanTo c w.batch (w.i + 1)).new_batch_end
  | .last_end => InRaw c w.batch w.batch_start w.batch_end ∧ w.batch_node_n = 0 ∧
      Agree c.node_n w.current_batch_mask (scanned c w.batch).batch_mask ∧
      s.new_batch_start = (scanned c w.batch).new_batch_start ∧
      s.new_batch_end = (scanned c w.batch).new_batch_end
  | .commit_start => w.batch_node_n = 0 ∧
      Agree c.node_n w.current_batch_mask (scanned c w.batch).batch_mask ∧
      s.new_batch_start = (scanned c w.batch).new_batch_start ∧
      s.new_batch_end = lastEnd c w.batch
  | .commit_end => w.batch_node_n = 0 ∧
      Agree c.node_n w.current_batch_mask (scanned c w.batch).batch_mask ∧
      w.batch_start = (scanned c w.batch).new_batch_start ∧ s.new_batch_end = lastEnd c w.batch
  | .skip => w.batch_node_n = 0 ∧
      Agree c.node_n w.current_batch_mask (scanned c w.batch).batch_mask ∧
      w.batch_start = (scanned c w.batch).new_batch_start ∧ w.batch_end = lastEnd c w.batch
  | .batch_edge_n => Found c w.batch w.batch_start w.batch_end ∧ w.batch_node_n = 0 ∧
      Agree c.node_n w.current_batch_mask (scanned c w.batch).batch_mask
  | .off_before => Found c w.batch w.batch_start w.batch_end ∧ w.batch_node_n = 0 ∧
      w.i ≤ u64 w.batch_start ∧ Agree c.node_n w.current_batch_mask
        (mark_off c.edges 0 w.i (scanned c w.batch).batch_mask)
  | .off_after => Found c w.batch w.batch_start w.batch_end ∧ w.batch_node_n = 0 ∧
      u64 w.batch_end ≤ w.i ∧ w.i ≤ c.edges.length ∧
      Agree c.node_n w.current_batch_mask (mark_off c.edges (u64 w.batch_end) w.i
        (mark_off c.edges 0 (u64 w.batch_start) (scanned c w.batch).batch_mask))
  | .count => Found c w.batch w.batch_start w.batch_end ∧ w.i ≤ c.node_n ∧
      w.batch_node_n = nodeCount w.i w.current_batch_mask ∧
      Agree c.node_n w.current_batch_mask
        (windowMask c w.batch (u64 w.batch_start) (u64 w.batch_end))
  | .off_batch => Found c w.batch w.batch_start w.batch_end ∧
      w.batch_node_n = nodeCount c.node_n w.current_batch_mask ∧
      Agree c.node_n w.current_batch_mask
        (windowMask c w.batch (u64 w.batch_start) (u64 w.batch_end))
  | .z_unique => Found c w.batch w.batch_start w.batch_end ∧
      s.off_batch_node_n = c.node_n - nodeCount c.node_n w.current_batch_mask ∧
      Agree c.node_n w.current_batch_mask
        (windowMask c w.batch (u64 w.batch_start) (u64 w.batch_end))
  | .refine => Found c w.batch w.batch_start w.batch_end ∧
      w.z_unique_n = nodeT (c.node_n - nodeCount c.node_n w.current_batch_mask + 1) ∧
      w.new_z_unique_n = w.z_unique_n ∧
      Agree c.node_n w.current_batch_mask
        (windowMask c w.batch (u64 w.batch_start) (u64 w.batch_end))

/-- The invariant of a worker that is not disturbed. -/
structure Inv (c : Env) (s : Shared) (w : Worker) : Prop where
  /-- The batches that are left have edges. -/
  todo : ∀ k ∈ w.todo, rawStart c.max_batch_edge_n k < c.edges.length
  /-- So has the current one. -/
  raw : w.line ≠ .next → rawStart c.max_batch_edge_n w.batch < c.edges.length
  line : LineInv c s w

theorem lastEnd_le {c : Env} {batch b : ℕ}
    (h : rawStart c.max_batch_edge_n batch < c.edges.length) (hb : lastEnd c batch = some b) :
    b ≤ c.edges.length := by
  have hlen : rawEnd c.max_batch_edge_n c.edges batch ≤ c.edges.length := Nat.min_le_left _ _
  rw [lastEnd, finalEnd] at hb
  split_ifs at hb
  · cases hb
    exact hlen
  · obtain ⟨-, -, -, hlt, -⟩ := (scan_inv c.node_n h).end_some b hb
    omega

theorem nodeCount_succ (i : ℕ) (m : Arr Mask) :
    nodeCount (i + 1) m = if m i ≠ .OFF_BATCH then nodeCount i m + 1 else nodeCount i m := by
  rw [nodeCount, List.range_succ, List.countP_append, List.countP_singleton]
  by_cases h : m i = .OFF_BATCH <;> simp [h, nodeCount]

/-- **A statement keeps the invariant.** -/
theorem Inv.exec {c : Env} {s : Shared} {w : Worker} (h : Inv c s w) :
    Inv c (Workers.exec c s w).1 (Workers.exec c s w).2 := by
  obtain ⟨htodo, hraw, hline⟩ := h
  obtain ⟨line, todo, batch, bs, be, bnn, ben, i, mask, z, nz⟩ := w
  have hlohi : line ≠ .next → rawStart c.max_batch_edge_n batch ≤
      rawEnd c.max_batch_edge_n c.edges batch := fun hl => by
    have : rawStart c.max_batch_edge_n batch < c.edges.length := hraw hl
    unfold rawStart rawEnd at *
    omega
  cases line with
  | next =>
    cases todo with
    | nil => exact ⟨htodo, hraw, trivial⟩
    | cons k todo =>
      exact ⟨fun k' hk' => htodo k' (List.mem_cons_of_mem _ hk'),
        fun _ => htodo k (List.mem_cons_self ..), trivial⟩
  | batch_start => exact ⟨htodo, fun _ => hraw (by simp), rfl⟩
  | batch_end =>
    have hbs : bs = some (rawStart c.max_batch_edge_n batch) := hline
    subst hbs
    exact ⟨htodo, fun _ => hraw (by simp), rfl, rfl⟩
  | batch_node_n =>
    exact ⟨htodo, fun _ => hraw (by simp), hline, rfl, Nat.zero_le _,
      fun v hv => absurd hv (Nat.not_lt_zero v)⟩
  | mask_init =>
    obtain ⟨hr, hb, hi, hm⟩ := hline
    unfold Workers.exec
    dsimp only at hr hb hi hm ⊢
    by_cases hlt : i < c.node_n
    · rw [if_pos hlt]
      refine ⟨htodo, fun _ => hraw (by simp), hr, hb, hlt, fun v hv => ?_⟩
      have hv : v < i + 1 := hv
      change Arr.set _ _ _ v = _
      rw [Arr.set_apply]
      by_cases hvi : v = i
      · rw [if_pos hvi, hvi, mask_init_apply hlt]
      · rw [if_neg hvi]
        exact hm v (by omega)
    · rw [if_neg hlt]
      have : i = c.node_n := by omega
      subst this
      exact ⟨htodo, fun _ => hraw (by simp), hr, hb, hm⟩
  | start_not_init =>
    obtain ⟨hr, hb, hm⟩ := hline
    exact ⟨htodo, fun _ => hraw (by simp), hr, hb, hm, rfl⟩
  | end_not_init =>
    obtain ⟨hr, hb, hm, hs⟩ := hline
    have hbs : bs = some (rawStart c.max_batch_edge_n batch) := hr.start_eq
    subst hbs
    have h0 : scanTo c batch (rawStart c.max_batch_edge_n batch) =
        ⟨none, none, mask_init c.node_n batch⟩ := by
      rw [scanTo, scan, Nat.sub_self]
      rfl
    refine ⟨htodo, fun _ => hraw (by simp), ⟨rfl, hr.end_eq⟩, hb, le_rfl, hlohi (by simp), ?_, ?_,
      ?_⟩
    · exact (congrArg (fun x : Scan => Agree c.node_n mask x.batch_mask) h0).mpr hm
    · exact hs.trans (congrArg Scan.new_batch_start h0).symm
    · exact (congrArg Scan.new_batch_end h0).symm
  | scan_start =>
    obtain ⟨hr, hb, hlo, hhi, hm, hs, he⟩ := hline
    have hbe : be = some (rawEnd c.max_batch_edge_n c.edges batch) := hr.end_eq
    unfold Workers.exec
    dsimp only at hr hb hlo hhi hm hs he ⊢
    rw [hbe, u64_some]
    by_cases hlt : i < rawEnd c.max_batch_edge_n c.edges batch
    · rw [if_pos hlt]
      refine ⟨htodo, fun _ => hraw (by simp), ⟨hr.start_eq, rfl⟩, hb, hlo, hlt, hm, ?_, he⟩
      dsimp only
      rw [scanTo, scan_succ _ _ _ hlo, hs]
      rfl
    · rw [if_neg hlt]
      have hi : i = rawEnd c.max_batch_edge_n c.edges batch := by omega
      subst hi
      exact ⟨htodo, fun _ => hraw (by simp), ⟨hr.start_eq, rfl⟩, hb, hm, hs, he⟩
  | scan_end =>
    obtain ⟨hr, hb, hlo, hhi, hm, hs, he⟩ := hline
    refine ⟨htodo, fun _ => hraw (by simp), hr, hb, hlo, hhi, hm, hs, ?_⟩
    dsimp only [Workers.exec] at hlo hs he ⊢
    rw [hs, he, scanTo, scanTo, scan_succ _ _ _ hlo]
    rfl
  | scan_mask =>
    obtain ⟨hr, hb, hlo, hhi, hm, hs, he⟩ := hline
    refine ⟨htodo, fun _ => hraw (by simp), hr, hb, ?_, hhi, ?_, hs, he⟩
    · exact Nat.le_succ_of_le hlo
    · dsimp only [Workers.exec] at hlo hm ⊢
      rw [scanTo, scan_succ _ _ _ hlo]
      exact hm.set _ _
  | last_end =>
    obtain ⟨hr, hb, hm, hs, he⟩ := hline
    have hbe : be = some (rawEnd c.max_batch_edge_n c.edges batch) := hr.end_eq
    subst hbe
    refine ⟨htodo, fun _ => hraw (by simp), hb, hm, hs, ?_⟩
    dsimp only [Workers.exec, u64_some] at he ⊢
    rw [he]
    rfl
  | commit_start =>
    obtain ⟨hb, hm, hs, he⟩ := hline
    exact ⟨htodo, fun _ => hraw (by simp), hb, hm, hs, he⟩
  | commit_end =>
    obtain ⟨hb, hm, hs, he⟩ := hline
    exact ⟨htodo, fun _ => hraw (by simp), hb, hm, hs, he⟩
  | skip =>
    obtain ⟨hb, hm, hs, he⟩ := hline
    unfold Workers.exec
    dsimp only at hb hm hs he ⊢
    split_ifs with hno
    · exact ⟨htodo, fun hl => absurd rfl hl, trivial⟩
    · push Not at hno
      exact ⟨htodo, fun _ => hraw (by simp), ⟨hs, he, hno.1, hno.2⟩, hb, hm⟩
  | batch_edge_n =>
    obtain ⟨hf, hb, hm⟩ := hline
    exact ⟨htodo, fun _ => hraw (by simp), hf, hb, Nat.zero_le _, hm⟩
  | off_before =>
    obtain ⟨hf, hb, hi, hm⟩ := hline
    unfold Workers.exec
    dsimp only at hb hi hm ⊢
    split_ifs with hlt
    · refine ⟨htodo, fun _ => hraw (by simp), hf, hb, hlt, ?_⟩
      dsimp only
      rw [mark_off_succ _ (Nat.zero_le i)]
      exact hm.set _ _
    · have hib : i = u64 bs := by omega
      obtain ⟨b, hbe⟩ := Option.ne_none_iff_exists'.1 hf.end_ne
      have hble := lastEnd_le (hraw (by simp)) (hf.end_eq.symm.trans hbe)
      have hbe : be = some b := hbe
      subst hib hbe
      refine ⟨htodo, fun _ => hraw (by simp), hf, hb, le_rfl, hble, ?_⟩
      dsimp only
      rw [u64_some, mark_off_self]
      exact hm
  | off_after =>
    obtain ⟨hf, hb, hlo, hi, hm⟩ := hline
    unfold Workers.exec
    dsimp only at hb hlo hi hm ⊢
    split_ifs with hlt
    · refine ⟨htodo, fun _ => hraw (by simp), hf, hb, ?_, hlt, ?_⟩
      · exact Nat.le_succ_of_le hlo
      · dsimp only
        rw [mark_off_succ _ hlo]
        exact hm.set _ _
    · have hil : i = c.edges.length := by omega
      subst hil
      exact ⟨htodo, fun _ => hraw (by simp), hf, Nat.zero_le _, hb, hm⟩
  | count =>
    obtain ⟨hf, hi, hb, hm⟩ := hline
    unfold Workers.exec
    dsimp only at hb hi hm ⊢
    split_ifs with hlt hoff
    · refine ⟨htodo, fun _ => hraw (by simp), hf, hlt, ?_, hm⟩
      dsimp only
      rw [nodeCount_succ, if_pos hoff, hb]
    · refine ⟨htodo, fun _ => hraw (by simp), hf, hlt, ?_, hm⟩
      dsimp only
      rw [nodeCount_succ, if_neg hoff, hb]
    · have hin : i = c.node_n := by omega
      subst hin
      exact ⟨htodo, fun _ => hraw (by simp), hf, hb, hm⟩
  | off_batch =>
    obtain ⟨hf, hb, hm⟩ := hline
    refine ⟨htodo, fun _ => hraw (by simp), hf, ?_, hm⟩
    exact congrArg (c.node_n - ·) hb
  | z_unique =>
    obtain ⟨hf, hs, hm⟩ := hline
    refine ⟨htodo, fun _ => hraw (by simp), hf, ?_, rfl, hm⟩
    exact congrArg (fun x => nodeT (x + 1)) hs
  | refine => exact ⟨htodo, fun hl => absurd rfl hl, trivial⟩

/-- **A worker that is not disturbed** goes on with its own window. -/
theorem Inv.ownBatch {c : Env} {s : Shared} {w : Worker} (h : Inv c s w) : OwnBatch c w := by
  obtain ⟨-, -, hline⟩ := h
  refine ⟨fun hl => ?_, fun hl => ?_⟩
  · rw [LineInv, hl] at hline
    obtain ⟨-, -, hs, he⟩ := hline
    rw [select_window_scanned, committed, hs, he]
    cases (scanned c w.batch).new_batch_start <;> cases lastEnd c w.batch <;> rfl
  · rw [LineInv, hl] at hline
    obtain ⟨⟨hs, he, hsn, hen⟩, hz, hnz, hm⟩ := hline
    obtain ⟨a, ha⟩ := Option.ne_none_iff_exists'.1 hsn
    obtain ⟨b, hb⟩ := Option.ne_none_iff_exists'.1 hen
    rw [ha, hb, u64_some, u64_some] at hm
    have hwin := select_window_scanned c w.batch
    rw [← hs, ← he, ha, hb] at hwin
    have hcount : nodeCount c.node_n w.current_batch_mask =
        nodeCount c.node_n (windowMask c w.batch a b) :=
      List.countP_congr fun v hv => by rw [hm v (List.mem_range.1 hv)]
    rw [hcount] at hz
    exact ⟨_, hwin, ha, hb, hm, hz, hnz.trans hz⟩

end Rbsc.Workers
