import Rbsc.Host.Model

/-!
# The window of a batch

What `select_window` finds in the raw range of a batch: from the first to the last place of the
range at which a group of edges starts or ends (`select_window_some`), or nothing when no group lies
in the range (`select_window_none`).  On grouped edges, the nodes of the mask are in the batch when
they are sources of the window, dangling when the batch is the first one and they have no edges, and
off the batch otherwise (`WindowSpec`).

* `Cut`: a group starts or ends at this place;
* `ScanInv`: the invariant of the scan;
* `select_window_single`: one batch that covers all edges has them all as its window.
-/

namespace Rbsc.Host

open Arrays Gpu

/-- A group of edges starts or ends before edge `i`. -/
def Cut (edges : List Edge) (i : ℕ) : Prop :=
  i = 0 ∨ i = edges.length ∨ startAt edges (i - 1) ≠ startAt edges i

/-- An edge in `[lo, hi)` starts at `v`. -/
def SourceIn (edges : List Edge) (lo hi v : ℕ) : Prop := ∃ i < hi, lo ≤ i ∧ startAt edges i = v

instance (edges : List Edge) (lo hi v : ℕ) : Decidable (SourceIn edges lo hi v) := by
  unfold SourceIn; infer_instance

theorem not_sourceIn_self (edges : List Edge) (lo v : ℕ) : ¬ SourceIn edges lo lo v := by
  rintro ⟨i, h₁, h₂, -⟩
  omega

theorem sourceIn_succ {edges : List Edge} {lo hi v : ℕ} (h : lo ≤ hi) :
    SourceIn edges lo (hi + 1) v ↔ SourceIn edges lo hi v ∨ startAt edges hi = v := by
  constructor
  · rintro ⟨i, hi', hlo, hv⟩
    rcases Nat.lt_succ_iff_lt_or_eq.1 hi' with hlt | rfl
    · exact Or.inl ⟨i, hlt, hlo, hv⟩
    · exact Or.inr hv
  · rintro (⟨i, hi', hlo, hv⟩ | hv)
    · exact ⟨i, by omega, hlo, hv⟩
    · exact ⟨hi, by omega, h, hv⟩

/-! ## The scan -/

/-- The scan has gone over `[lo, j)`. -/
structure ScanInv (edges : List Edge) (mask₀ : Arr Mask) (lo j : ℕ) (s : Scan) : Prop where
  start_none : s.new_batch_start = none → ∀ i, lo ≤ i → i < j → ¬ Cut edges i
  start_some : ∀ a, s.new_batch_start = some a →
    lo ≤ a ∧ a < j ∧ Cut edges a ∧ ∀ i, lo ≤ i → i < a → ¬ Cut edges i
  end_none : s.new_batch_end = none → ∀ a, s.new_batch_start = some a →
    ∀ i, a ≤ i → i < j → Cut edges i → i = 0
  end_some : ∀ b, s.new_batch_end = some b → ∃ a, s.new_batch_start = some a ∧ a ≤ b ∧ b < j ∧
    Cut edges b ∧ ∀ i, b < i → i < j → ¬ Cut edges i
  mask : ∀ v, s.batch_mask v = if SourceIn edges lo j v then .IN_BATCH else mask₀ v

variable {edges : List Edge} {mask₀ : Arr Mask} {lo j : ℕ} {s : Scan}

theorem cut_iff_of_lt {i : ℕ} (hi : i < edges.length) :
    Cut edges i ↔ i = 0 ∨ startAt edges (i - 1) ≠ startAt edges i := by
  have : i ≠ edges.length := hi.ne
  simp [Cut, this]

theorem ScanInv.mask_step (h : ScanInv edges mask₀ lo j s) (hlo : lo ≤ j) (v : ℕ) :
    s.batch_mask.set (startAt edges j) .IN_BATCH v =
      if SourceIn edges lo (j + 1) v then .IN_BATCH else mask₀ v := by
  simp only [Arr.set_apply, h.mask v, sourceIn_succ hlo]
  by_cases hv : v = startAt edges j
  · rw [if_pos hv, if_pos (Or.inr hv.symm)]
  · have : ¬ startAt edges j = v := fun h => hv h.symm
    simp [hv, this]

/-- **The scan keeps its invariant.** -/
theorem ScanInv.step (h : ScanInv edges mask₀ lo j s) (hlo : lo ≤ j) (hj : j < edges.length) :
    ScanInv edges mask₀ lo (j + 1) (scan_step edges s j) := by
  have hcut := cut_iff_of_lt hj
  by_cases hc : Cut edges j
  · -- a group starts at `j`
    have hb := hcut.1 hc
    cases hs : s.new_batch_start with
    | none =>
      have hstart : (scan_step edges s j).new_batch_start = some j := by
        simp [scan_step, hs, hb]
      have hsend : s.new_batch_end = none := by
        by_contra hne
        obtain ⟨b, hbe⟩ := Option.ne_none_iff_exists'.1 hne
        obtain ⟨a, ha, -⟩ := h.end_some b hbe
        rw [hs] at ha; cases ha
      refine ⟨fun hn => ?_, fun a ha => ?_, fun hn a ha i hi hij _ => ?_, fun b hbe => ?_,
        fun v => h.mask_step hlo v⟩
      · rw [hstart] at hn
        cases hn
      · rw [hstart] at ha
        cases ha
        exact ⟨hlo, by omega, hc, h.start_none hs⟩
      · rw [hstart] at ha
        cases ha
        by_contra h0
        have hne : startAt edges (j - 1) ≠ startAt edges j := by
          rcases hb with hb | hb
          · omega
          · exact hb
        have hj0 : j ≠ 0 := by omega
        simp [scan_step, hs, hne, hj0] at hn
      · refine ⟨j, hstart, ?_⟩
        have : b = j := by
          simp only [scan_step, hs, hsend] at hbe
          split_ifs at hbe <;> simp_all
        subst this
        exact ⟨le_rfl, by omega, hc, fun i hi hij => by omega⟩
    | some a₀ =>
      obtain ⟨ha₀, ha₀j, hca₀, hmin⟩ := h.start_some a₀ hs
      have hj0 : j ≠ 0 := by omega
      have hne : startAt edges (j - 1) ≠ startAt edges j := by
        rcases hb with hb | hb
        · omega
        · exact hb
      have hstart : (scan_step edges s j).new_batch_start = some a₀ := by
        simp [scan_step, hs]
      have hend : (scan_step edges s j).new_batch_end = some j := by
        simp [scan_step, hs, hj0, hne]
      refine ⟨fun hn => ?_, fun a ha => ?_, fun hn => ?_, fun b hbe => ?_,
        fun v => h.mask_step hlo v⟩
      · rw [hstart] at hn
        cases hn
      · rw [hstart] at ha
        cases ha
        exact ⟨ha₀, by omega, hca₀, hmin⟩
      · rw [hend] at hn
        cases hn
      · rw [hend] at hbe
        cases hbe
        exact ⟨a₀, hstart, by omega, by omega, hc, fun i hi hij => by omega⟩
  · -- the group of `j - 1` goes on
    have hb : ¬ (j = 0 ∨ startAt edges (j - 1) ≠ startAt edges j) := fun hb => hc (hcut.2 hb)
    have hb' : ¬ startAt edges (j - 1) ≠ startAt edges j := fun hne => hb (Or.inr hne)
    have hstart : (scan_step edges s j).new_batch_start = s.new_batch_start := by
      simp only [scan_step, hb, false_and, if_false]
    have hend : (scan_step edges s j).new_batch_end = s.new_batch_end := by
      simp only [scan_step, hb', and_false, if_false]
    have hlast : ∀ i, i < j + 1 → Cut edges i → i < j := fun i hi hci => by
      rcases Nat.lt_succ_iff_lt_or_eq.1 hi with h | rfl
      · exact h
      · exact absurd hci hc
    refine ⟨fun hn i hi hij hci => ?_, fun a ha => ?_, fun hn a ha i hi hij hci => ?_,
      fun b hbe => ?_, fun v => h.mask_step hlo v⟩
    · exact h.start_none (hstart ▸ hn) i hi (hlast i hij hci) hci
    · obtain ⟨h₁, h₂, h₃⟩ := h.start_some a (hstart ▸ ha)
      exact ⟨h₁, by omega, h₃⟩
    · exact h.end_none (hend ▸ hn) a (hstart ▸ ha) i hi (hlast i hij hci) hci
    · obtain ⟨a, ha, hab, hbj, hcb, hmax⟩ := h.end_some b (hend ▸ hbe)
      exact ⟨a, hstart.trans ha, hab, by omega, hcb, fun i hi hij hci =>
        hmax i hi (hlast i hij hci) hci⟩

theorem scanInv_range (edges : List Edge) (s₀ : Scan)
    (h0 : s₀.new_batch_start = none) (h0' : s₀.new_batch_end = none) (lo : ℕ) :
    ∀ m, lo + m ≤ edges.length →
      ScanInv edges s₀.batch_mask lo (lo + m) ((List.range' lo m).foldl (scan_step edges) s₀) := by
  intro m
  induction m with
  | zero =>
    intro _
    refine ⟨fun _ i hi hij => by omega, fun a ha => ?_, fun _ a ha => ?_, fun b hb => ?_,
      fun v => ?_⟩
    · simp [h0] at ha
    · simp [h0] at ha
    · simp [h0'] at hb
    · rw [if_neg (by simpa using not_sourceIn_self edges lo v)]
      rfl
  | succ m ih =>
    intro hm
    rw [List.range'_concat, List.foldl_append]
    have := (ih (by omega)).step (by omega) (by omega)
    simpa [Nat.add_assoc] using this

/-! ## The correction of the mask -/

theorem mark_off_apply (edges : List Edge) (lo hi : ℕ) (m : Arr Mask) (v : ℕ) :
    mark_off edges lo hi m v = if SourceIn edges lo hi v then .OFF_BATCH else m v := by
  have key : ∀ k, (List.range' lo k).foldl (fun m i => m.set (startAt edges i) .OFF_BATCH) m v =
      if SourceIn edges lo (lo + k) v then .OFF_BATCH else m v := by
    intro k
    induction k with
    | zero =>
      rw [if_neg (by simpa using not_sourceIn_self edges lo v)]
      rfl
    | succ k ih =>
      rw [List.range'_concat, List.foldl_append, List.foldl_cons, List.foldl_nil, Arr.set_apply,
        ih, Nat.one_mul]
      simp only [← Nat.add_assoc, sourceIn_succ (Nat.le_add_right lo k)]
      by_cases hv : v = startAt edges (lo + k)
      · rw [if_pos hv, if_pos (Or.inr hv.symm)]
      · have : ¬ startAt edges (lo + k) = v := fun h => hv h.symm
        simp [hv, this]
  rw [mark_off, key]
  by_cases hlh : lo ≤ hi
  · rw [Nat.add_sub_cancel' hlh]
  · rw [if_neg (by rintro ⟨i, h₁, h₂, -⟩; omega), if_neg (by rintro ⟨i, h₁, h₂, -⟩; omega)]

/-! ## The window -/

/-- The raw range of a batch. -/
def rawStart (max_batch_edge_n batch : ℕ) : ℕ := batch * max_batch_edge_n

/-- The end of the raw range. -/
def rawEnd (max_batch_edge_n : ℕ) (edges : List Edge) (batch : ℕ) : ℕ :=
  min edges.length (batch * max_batch_edge_n + max_batch_edge_n)

/-- The first mask of a batch. -/
def mask_init (node_n batch : ℕ) : Arr Mask :=
  fill node_n (fun _ => if batch = 0 then .DANGLING else .OFF_BATCH) (.const .OFF_BATCH)

theorem mask_init_apply {node_n batch v : ℕ} (hv : v < node_n) :
    mask_init node_n batch v = if batch = 0 then .DANGLING else .OFF_BATCH := fill_of_lt _ _ hv

section Select

variable {max node_n batch : ℕ} {win : Window}

theorem raw_lt (h : rawStart max batch < edges.length) (hmax : 1 ≤ max) :
    rawStart max batch < rawEnd max edges batch := by
  unfold rawStart rawEnd at *; omega

theorem scan_inv (node_n : ℕ) (h : rawStart max batch < edges.length) :
    ScanInv edges (mask_init node_n batch) (rawStart max batch) (rawEnd max edges batch)
      (scan node_n edges batch (rawStart max batch) (rawEnd max edges batch)) := by
  have hle : rawStart max batch ≤ rawEnd max edges batch := by unfold rawStart rawEnd at *; omega
  have hlen : rawEnd max edges batch ≤ edges.length := Nat.min_le_left _ _
  have := scanInv_range edges
    { new_batch_start := none, new_batch_end := none, batch_mask := mask_init node_n batch } rfl rfl
    (rawStart max batch) (rawEnd max edges batch - rawStart max batch) (by omega)
  rwa [Nat.add_sub_cancel' hle] at this

/-- `new_batch_end` after the test that follows the scan. -/
def finalEnd (edges : List Edge) (batch_end : ℕ) (s : Scan) : Option ℕ :=
  if batch_end = edges.length ∨ startAt edges batch_end ≠ startAt edges (batch_end - 1) then
    some batch_end
  else s.new_batch_end

theorem select_window_eq (max node_n : ℕ) (edges : List Edge) (batch : ℕ) :
    select_window max node_n edges batch =
      let s := scan node_n edges batch (rawStart max batch) (rawEnd max edges batch)
      match s.new_batch_start, finalEnd edges (rawEnd max edges batch) s with
      | some a, some b =>
        let m := mark_off edges b edges.length (mark_off edges 0 a s.batch_mask)
        some ⟨a, b, m, node_n - (List.range node_n).countP fun i => m i ≠ .OFF_BATCH⟩
      | _, _ => none := rfl

/-- The test after the scan finds a cut at the end of the raw range. -/
theorem cut_rawEnd_iff (h : rawStart max batch < edges.length) (hmax : 1 ≤ max) :
    Cut edges (rawEnd max edges batch) ↔ rawEnd max edges batch = edges.length ∨
      startAt edges (rawEnd max edges batch) ≠ startAt edges (rawEnd max edges batch - 1) := by
  have := raw_lt h hmax
  have h0 : rawEnd max edges batch ≠ 0 := by omega
  simp only [Cut, h0, false_or]
  exact or_congr Iff.rfl ne_comm

/-- **The window of a batch**: from the first to the last cut of the raw range. -/
theorem select_window_some (h : rawStart max batch < edges.length) (hmax : 1 ≤ max)
    (hwin : select_window max node_n edges batch = some win) :
    rawStart max batch ≤ win.batch_start ∧ win.batch_start ≤ win.batch_end ∧
      win.batch_end ≤ rawEnd max edges batch ∧ Cut edges win.batch_start ∧
      Cut edges win.batch_end ∧ (∀ i, rawStart max batch ≤ i → i < win.batch_start → ¬ Cut edges i) ∧
      (∀ i, win.batch_end < i → i ≤ rawEnd max edges batch → ¬ Cut edges i) ∧
      (∀ v, win.batch_mask v =
        if SourceIn edges win.batch_end edges.length v ∨ SourceIn edges 0 win.batch_start v then
          .OFF_BATCH
        else if SourceIn edges (rawStart max batch) (rawEnd max edges batch) v then .IN_BATCH
        else mask_init node_n batch v) ∧
      win.off_batch_node_n =
        node_n - (List.range node_n).countP fun i => win.batch_mask i ≠ .OFF_BATCH := by
  have hinv := scan_inv node_n h
  have hcut := cut_rawEnd_iff h hmax
  have hlt := raw_lt h hmax
  have hlen : rawEnd max edges batch ≤ edges.length := Nat.min_le_left _ _
  rw [select_window_eq] at hwin
  dsimp only at hwin
  set s := scan node_n edges batch (rawStart max batch) (rawEnd max edges batch) with hs
  cases hsa : s.new_batch_start with
  | none => simp [hsa] at hwin
  | some a =>
    cases heb : finalEnd edges (rawEnd max edges batch) s with
    | none => simp [hsa, heb] at hwin
    | some b =>
      simp only [hsa, heb, Option.some.injEq] at hwin
      obtain ⟨ha, haj, hca, hmin⟩ := hinv.start_some a hsa
      -- where the end comes from
      have hb : a ≤ b ∧ b ≤ rawEnd max edges batch ∧ Cut edges b ∧
          ∀ i, b < i → i ≤ rawEnd max edges batch → ¬ Cut edges i := by
        by_cases hc : Cut edges (rawEnd max edges batch)
        · rw [finalEnd, if_pos (hcut.1 hc)] at heb
          cases heb
          exact ⟨by omega, le_rfl, hc, fun i hi hij => by omega⟩
        · rw [finalEnd, if_neg fun hc' => hc (hcut.2 hc')] at heb
          obtain ⟨a', ha', hab, hbj, hcb, hmax⟩ := hinv.end_some b heb
          cases hsa.symm.trans ha'
          refine ⟨hab, hbj.le, hcb, fun i hi hij hci => ?_⟩
          rcases hij.lt_or_eq with hij | rfl
          · exact hmax i hi hij hci
          · exact hc hci
      subst hwin
      refine ⟨ha, hb.1, hb.2.1, hca, hb.2.2.1, hmin, hb.2.2.2, fun v => ?_, rfl⟩
      dsimp only
      rw [mark_off_apply, mark_off_apply, hinv.mask]
      by_cases h₁ : SourceIn edges b edges.length v
      · rw [if_pos h₁, if_pos (Or.inl h₁)]
      · simp only [h₁, if_false, false_or]

/-- **A skipped batch**: no group lies in its raw range. -/
theorem select_window_none (h : rawStart max batch < edges.length) (hmax : 1 ≤ max)
    (hwin : select_window max node_n edges batch = none) {a b : ℕ}
    (ha : rawStart max batch ≤ a) (hab : a < b) (hb : b ≤ rawEnd max edges batch)
    (hca : Cut edges a) : ¬ Cut edges b := by
  intro hcb
  have hinv := scan_inv node_n h
  have hcut := cut_rawEnd_iff h hmax
  rw [select_window_eq] at hwin
  dsimp only at hwin
  set s := scan node_n edges batch (rawStart max batch) (rawEnd max edges batch) with hs
  cases hsa : s.new_batch_start with
  | none => exact hinv.start_none hsa a ha (by omega) hca
  | some a₀ =>
    obtain ⟨ha₀, -, -, hmin⟩ := hinv.start_some a₀ hsa
    have ha₀a : a₀ ≤ a := by
      by_contra hlt
      exact hmin a ha (by omega) hca
    cases heb : finalEnd edges (rawEnd max edges batch) s with
    | some b₀ => simp [hsa, heb] at hwin
    | none =>
      have hce : ¬ Cut edges (rawEnd max edges batch) := fun hc => by
        rw [finalEnd, if_pos (hcut.1 hc)] at heb
        cases heb
      rw [finalEnd, if_neg fun hc => hce (hcut.2 hc)] at heb
      rcases hb.lt_or_eq with hb | rfl
      · have := hinv.end_none heb a₀ hsa b (by omega) hb hcb
        omega
      · exact hce hcb

end Select

/-! ## Windows of grouped edges -/

/-- No group goes across a cut. -/
theorem Cut.ne {a i j : ℕ} (hc : Cut edges a) (hgr : Grouped edges) (hi : i < a) (hj : a ≤ j)
    (hjl : j < edges.length) : startAt edges i ≠ startAt edges j := by
  intro hij
  have hne : startAt edges (a - 1) ≠ startAt edges a := by
    rcases hc with h | h | h
    · omega
    · omega
    · exact h
  have h₁ : startAt edges (a - 1) = startAt edges j := by
    by_cases hia : i = a - 1
    · rwa [← hia]
    · exact hgr j hjl (a - 1) (by omega) i (by omega) hij
  have h₂ : startAt edges a = startAt edges j := by
    rcases hj.lt_or_eq with h | rfl
    · exact hgr j hjl a h i hi hij
    · rfl
  exact hne (h₁.trans h₂.symm)

section Slice

variable {a b : ℕ}

theorem length_slice (hb : b ≤ edges.length) : (slice edges a b).length = b - a := by
  rw [slice, List.length_take, List.length_drop]
  omega

theorem startAt_slice (hb : b ≤ edges.length) {i : ℕ} (hi : i < b - a) :
    startAt (slice edges a b) i = startAt edges (a + i) := by
  rw [startAt_eq (by rw [length_slice hb]; exact hi), startAt_eq (by omega)]
  simp [slice]

theorem isSource_slice (hb : b ≤ edges.length) {v : ℕ} :
    IsSource (slice edges a b) v ↔ SourceIn edges a b v := by
  rw [isSource_iff, length_slice hb]
  constructor
  · rintro ⟨i, hi, hv⟩
    exact ⟨a + i, by omega, by omega, by rwa [startAt_slice hb hi] at hv⟩
  · rintro ⟨i, hi, ha, hv⟩
    refine ⟨i - a, by omega, ?_⟩
    rw [startAt_slice hb (by omega), Nat.add_sub_cancel' ha, hv]

theorem mem_of_mem_slice {e : Edge} (h : e ∈ slice edges a b) : e ∈ edges :=
  List.mem_of_mem_drop (List.mem_of_mem_take h)

theorem grouped_slice (hb : b ≤ edges.length) (hgr : Grouped edges) :
    Grouped (slice edges a b) := by
  intro k hk j hj i hi
  rw [length_slice hb] at hk
  rw [startAt_slice hb (by omega), startAt_slice hb (by omega), startAt_slice hb (by omega)]
  exact hgr (a + k) (by omega) (a + j) (by omega) (a + i) (by omega)

end Slice

theorem isSource_iff_sourceIn {v : ℕ} : IsSource edges v ↔ SourceIn edges 0 edges.length v := by
  rw [isSource_iff]
  exact exists_congr fun i => and_congr_right fun _ => by simp

/-- The window of a batch that is not skipped, on grouped edges. -/
structure WindowSpec (max_batch_edge_n node_n : ℕ) (edges : List Edge) (batch : ℕ) (win : Window) :
    Prop where
  raw_le : rawStart max_batch_edge_n batch ≤ win.batch_start
  le : win.batch_start ≤ win.batch_end
  le_raw : win.batch_end ≤ rawEnd max_batch_edge_n edges batch
  cut_start : Cut edges win.batch_start
  cut_end : Cut edges win.batch_end
  in_iff : ∀ v < node_n,
    win.batch_mask v = .IN_BATCH ↔ SourceIn edges win.batch_start win.batch_end v
  dangling_iff : ∀ v < node_n, win.batch_mask v = .DANGLING ↔ batch = 0 ∧ ¬ IsSource edges v
  off_count : win.off_batch_node_n = offCount node_n win.batch_mask

theorem offCount_eq (n : ℕ) (m : Arr Mask) :
    n - (List.range n).countP (fun i => m i ≠ .OFF_BATCH) = offCount n m := by
  have hcard : offCount n m = (List.range n).countP fun i => m i = .OFF_BATCH := by
    rw [offCount, List.countP_eq_length_filter, ← List.toFinset_card_of_nodup
      (List.nodup_range.filter _)]
    congr 1
    ext v
    simp
  have hlen := List.length_eq_countP_add_countP (fun i => decide (m i = .OFF_BATCH))
    (l := List.range n)
  rw [List.length_range] at hlen
  have hneg : (List.range n).countP (fun i => decide (m i ≠ .OFF_BATCH)) =
      (List.range n).countP fun i => decide ¬ decide (m i = .OFF_BATCH) = true :=
    List.countP_congr fun i _ => by simp
  rw [hcard, hneg]
  omega

section Spec

variable {max node_n batch : ℕ} {win : Window}

theorem windowSpec (hgr : Grouped edges) (hmax : 1 ≤ max) (h : rawStart max batch < edges.length)
    (hwin : select_window max node_n edges batch = some win) :
    WindowSpec max node_n edges batch win := by
  obtain ⟨h₁, h₂, h₃, hca, hcb, -, -, hmask, hoff⟩ := select_window_some h hmax hwin
  have hlen : rawEnd max edges batch ≤ edges.length := Nat.min_le_left _ _
  -- the sources of the window have no edge outside
  have hout : ∀ v, SourceIn edges win.batch_start win.batch_end v →
      ¬ (SourceIn edges win.batch_end edges.length v ∨ SourceIn edges 0 win.batch_start v) := by
    rintro v ⟨i, hib, hai, hv⟩ (⟨j, hj, hbj, hv'⟩ | ⟨j, hj, -, hv'⟩)
    · exact hcb.ne hgr hib hbj hj (hv.trans hv'.symm)
    · exact hca.ne hgr hj hai (by omega) (hv'.trans hv.symm)
  have hin : ∀ v < node_n, win.batch_mask v = .IN_BATCH ↔
      SourceIn edges win.batch_start win.batch_end v := by
    intro v hv
    rw [hmask v, mask_init_apply hv]
    constructor
    · intro hm
      split_ifs at hm with h₁ h₂
      obtain ⟨i, hie, his, hiv⟩ := h₂
      refine ⟨i, ?_, ?_, hiv⟩
      · by_contra hb
        exact h₁ (Or.inl ⟨i, by omega, by omega, hiv⟩)
      · by_contra ha
        exact h₁ (Or.inr ⟨i, by omega, by omega, hiv⟩)
    · intro hs
      obtain ⟨i, hib, hai, hiv⟩ := hs
      rw [if_neg (hout v ⟨i, hib, hai, hiv⟩), if_pos ⟨i, by omega, by omega, hiv⟩]
  refine ⟨h₁, h₂, h₃, hca, hcb, hin, fun v hv => ?_, hoff.trans (offCount_eq _ _)⟩
  rw [hmask v, mask_init_apply hv, isSource_iff_sourceIn]
  constructor
  · intro hm
    split_ifs at hm with h₁ h₂ h₃
    refine ⟨h₃, ?_⟩
    rintro ⟨i, hi, -, hiv⟩
    by_cases hia : i < win.batch_start
    · exact h₁ (Or.inr ⟨i, hia, by omega, hiv⟩)
    · by_cases hib : i < win.batch_end
      · exact h₂ ⟨i, by omega, by omega, hiv⟩
      · exact h₁ (Or.inl ⟨i, hi, by omega, hiv⟩)
  · rintro ⟨h0, hs⟩
    rw [if_neg, if_neg, if_pos h0]
    · rintro ⟨i, hi, -, hiv⟩
      exact hs ⟨i, by omega, by omega, hiv⟩
    · rintro (⟨i, hi, -, hiv⟩ | ⟨i, hi, -, hiv⟩)
      · exact hs ⟨i, by omega, by omega, hiv⟩
      · exact hs ⟨i, by omega, by omega, hiv⟩

theorem WindowSpec.end_le (h : WindowSpec max node_n edges batch win) :
    win.batch_end ≤ edges.length := h.le_raw.trans (Nat.min_le_left _ _)

/-- The window is what the refinement asks for. -/
theorem WindowSpec.windowOk (h : WindowSpec max node_n edges batch win) (hgr : Grouped edges)
    (hids : IdsBelow node_n edges) :
    WindowOk node_n (slice edges win.batch_start win.batch_end) win.batch_mask where
  grouped := grouped_slice h.end_le hgr
  ids e he := hids e (mem_of_mem_slice he)
  in_batch_iff v hv := (h.in_iff v hv).trans (isSource_slice h.end_le).symm

/-- All edges of a source of the window are in the window. -/
theorem WindowSpec.edgeWeight_slice (h : WindowSpec max node_n edges batch win)
    (hgr : Grouped edges) {u : ℕ} (hu : SourceIn edges win.batch_start win.batch_end u) (v : ℕ) :
    edgeWeight (slice edges win.batch_start win.batch_end) u v = edgeWeight edges u v := by
  obtain ⟨i, hib, hai, hiu⟩ := hu
  have hend := h.end_le
  have hle := h.le
  have hsplit : edges = edges.take win.batch_start ++
      (slice edges win.batch_start win.batch_end ++ edges.drop win.batch_end) := by
    conv_lhs => rw [← List.take_append_drop win.batch_start edges,
      ← List.take_append_drop (win.batch_end - win.batch_start) (edges.drop win.batch_start),
      List.drop_drop, Nat.add_sub_cancel' hle]
    rfl
  have h₁ : ¬ IsSource (edges.take win.batch_start) u := by
    rw [isSource_take (by omega)]
    rintro ⟨j, hj, hju⟩
    exact h.cut_start.ne hgr hj hai (by omega) (hju.trans hiu.symm)
  have h₂ : ¬ IsSource (edges.drop win.batch_end) u := by
    rw [isSource_iff, List.length_drop]
    rintro ⟨j, hj, hju⟩
    rw [startAt_eq (by rw [List.length_drop]; exact hj), List.getElem_drop,
      ← startAt_eq (by omega)] at hju
    exact h.cut_end.ne hgr hib (Nat.le_add_right _ j) (by omega) (hiu.trans hju.symm)
  conv_rhs => rw [hsplit]
  rw [edgeWeight_append, edgeWeight_append, edgeWeight_eq_zero h₁, edgeWeight_eq_zero h₂]
  omega

/-- **No node is in two batches.** -/
theorem WindowSpec.unique {batch' : ℕ} {win' : Window}
    (h : WindowSpec max node_n edges batch win) (h' : WindowSpec max node_n edges batch' win')
    (hgr : Grouped edges) {v : ℕ} (hv : v < node_n) (hm : win.batch_mask v ≠ .OFF_BATCH)
    (hm' : win'.batch_mask v ≠ .OFF_BATCH) : batch = batch' := by
  -- windows of different batches have different sources
  have key : ∀ {k k' : ℕ} {w w' : Window}, WindowSpec max node_n edges k w →
      WindowSpec max node_n edges k' w' → w.batch_mask v = .IN_BATCH →
      w'.batch_mask v = .IN_BATCH → k' ≤ k := by
    intro k k' w w' hw hw' hi hi'
    by_contra hlt
    obtain ⟨i, hib, -, hiv⟩ := (hw.in_iff v hv).1 hi
    obtain ⟨j, hjb, haj, hjv⟩ := (hw'.in_iff v hv).1 hi'
    have h₁ := hw.le_raw
    have h₂ := hw'.raw_le
    have h₃ := hw'.end_le
    have hraw : rawEnd max edges k ≤ rawStart max k' := by
      have hmul : (k + 1) * max ≤ k' * max := Nat.mul_le_mul_right _ (by omega)
      have hmin := Nat.min_le_right edges.length (k * max + max)
      rw [Nat.add_mul, Nat.one_mul] at hmul
      unfold rawEnd rawStart
      omega
    exact hw.cut_end.ne hgr hib (by omega) (by omega) (hiv.trans hjv.symm)
  have hcase : ∀ {k : ℕ} {w : Window}, WindowSpec max node_n edges k w →
      w.batch_mask v ≠ .OFF_BATCH →
        w.batch_mask v = .IN_BATCH ∧ IsSource edges v ∨ k = 0 ∧ ¬ IsSource edges v := by
    intro k w hw hoff
    cases hm : w.batch_mask v with
    | OFF_BATCH => exact absurd hm hoff
    | DANGLING => exact Or.inr ((hw.dangling_iff v hv).1 hm)
    | IN_BATCH =>
      obtain ⟨i, hi, -, hiv⟩ := (hw.in_iff v hv).1 hm
      have := hw.end_le
      exact Or.inl ⟨rfl, isSource_iff.2 ⟨i, by omega, hiv⟩⟩
  rcases hcase h hm with ⟨hi, hs⟩ | ⟨h0, hs⟩ <;> rcases hcase h' hm' with ⟨hi', hs'⟩ | ⟨h0', hs'⟩
  · exact le_antisymm (key h' h hi' hi) (key h h' hi hi')
  · exact absurd hs hs'
  · exact absurd hs' hs
  · rw [h0, h0']

/-- **One batch that covers all edges** has them all as its window. -/
theorem select_window_single (node_n : ℕ) (hne : 0 < edges.length) (hmax : edges.length ≤ max) :
    ∃ win, select_window max node_n edges 0 = some win ∧ win.batch_start = 0 ∧
      win.batch_end = edges.length := by
  have hraw : rawStart max 0 = 0 := Nat.zero_mul _
  have hrawEnd : rawEnd max edges 0 = edges.length := by unfold rawEnd; omega
  have hlt : rawStart max 0 < edges.length := by omega
  cases hwin : select_window max node_n edges 0 with
  | none =>
    exact absurd (Or.inr (Or.inl rfl)) (select_window_none hlt (by omega) hwin (a := 0)
      (by omega) hne hrawEnd.ge (Or.inl rfl))
  | some win =>
    obtain ⟨-, -, h₃, -, -, hmin, hlast, -⟩ := select_window_some hlt (by omega) hwin
    refine ⟨win, rfl, ?_, ?_⟩
    · by_contra h0
      exact hmin 0 (by omega) (by omega) (Or.inl rfl)
    · by_contra hb
      exact hlast edges.length (by omega) (by omega) (Or.inr (Or.inl rfl))

end Spec

theorem slice_all (edges : List Edge) : slice edges 0 edges.length = edges := by
  simp [slice]

end Rbsc.Host
