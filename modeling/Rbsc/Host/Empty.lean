import Rbsc.Host.Round

/-!
# Empty windows

The scan sets the start and the end of a window in one turn when a group starts there.  If no other
group starts or ends in the raw range, the window is empty and the batch is not skipped: the edge
kernels are launched with zero blocks.  Apart from that a launch has no blocks only when the grid of
the sources wraps (`launches_iff`).

* `cutsIn`: the places of a range at which groups start or end;
* `Launches`: every grid that is computed from the window has a block.
-/

namespace Rbsc.Host

open Arrays Gpu

instance (edges : List Edge) (i : ℕ) : Decidable (Cut edges i) := by unfold Cut; infer_instance

/-- The places of `[lo, hi]` at which a group starts or ends. -/
def cutsIn (edges : List Edge) (lo hi : ℕ) : Finset ℕ :=
  (Finset.Icc lo hi).filter fun i => Cut edges i

/-- The window of a launch has an edge, and both grids that are computed from its counts have a
block. -/
def Launches (window : List Edge) : Prop :=
  1 ≤ window.length ∧ 1 ≤ edge_grid window.length ∧ 1 ≤ node_grid (unique_count window)

instance (window : List Edge) : Decidable (Launches window) := by
  unfold Launches; infer_instance

variable {edges : List Edge} {max n batch : ℕ} {win : Window}

theorem mem_cutsIn {lo hi i : ℕ} : i ∈ cutsIn edges lo hi ↔ (lo ≤ i ∧ i ≤ hi) ∧ Cut edges i := by
  rw [cutsIn, Finset.mem_filter, Finset.mem_Icc]

/-! ## The number of sources -/

/-- The sources of a range that starts at a cut are counted at its cuts. -/
theorem unique_count_slice {a b : ℕ} (hb : b ≤ edges.length) (hca : Cut edges a) :
    unique_count (slice edges a b) = nodeT ((Finset.Ico a b).filter fun i => Cut edges i).card := by
  have hcard : (List.range (b - a)).countP (fun i => i = 0 ∨
      startAt (slice edges a b) i ≠ startAt (slice edges a b) (i - 1)) =
      ((Finset.Ico a b).filter fun i => Cut edges i).card := by
    rw [List.countP_eq_length_filter, ← List.toFinset_card_of_nodup (List.nodup_range.filter _)]
    refine Finset.card_bij (fun i _ => a + i) (fun i hi => ?_) (fun i _ j _ hij => ?_)
      fun i hi => ?_
    · simp only [List.mem_toFinset, List.mem_filter, List.mem_range, decide_eq_true_eq] at hi
      obtain ⟨hi, hi'⟩ := hi
      refine Finset.mem_filter.2 ⟨Finset.mem_Ico.2 ⟨by omega, by omega⟩, ?_⟩
      by_cases h0 : i = 0
      · rwa [h0, Nat.add_zero]
      · have hne := hi'.resolve_left h0
        rw [startAt_slice hb hi, startAt_slice hb (by omega), ← Nat.add_sub_assoc (by omega)]
          at hne
        exact Or.inr (Or.inr hne.symm)
    · exact Nat.add_left_cancel hij
    · obtain ⟨hi, hc⟩ := Finset.mem_filter.1 hi
      rw [Finset.mem_Ico] at hi
      refine ⟨i - a, ?_, by omega⟩
      simp only [List.mem_toFinset, List.mem_filter, List.mem_range, decide_eq_true_eq]
      refine ⟨by omega, ?_⟩
      by_cases h0 : i = a
      · exact Or.inl (by omega)
      · have hne := ((cut_iff_of_lt (by omega)).1 hc).resolve_left (by omega)
        rw [startAt_slice hb (by omega), startAt_slice hb (by omega), Nat.add_sub_of_le hi.1,
          show a + (i - a - 1) = i - 1 by omega]
        exact Or.inr hne.symm
  rw [unique_count, count_unique_elements, length_slice hb, threads_edge, Nat.zero_add, hcard]

/-- There are no more groups than sources. -/
theorem card_cuts_le (hgr : Grouped edges) (hids : ∀ e ∈ edges, e.edge_start < 2 ^ 32) {a b : ℕ}
    (hb : b ≤ edges.length) : ((Finset.Ico a b).filter fun i => Cut edges i).card ≤ 2 ^ 32 := by
  rw [← Finset.card_range (2 ^ 32)]
  refine Finset.card_le_card_of_injOn (startAt edges) (fun i hi => ?_) fun i hi j hj hij => ?_
  · obtain ⟨hi, -⟩ := Finset.mem_filter.1 hi
    rw [Finset.mem_Ico] at hi
    rw [Finset.coe_range, Set.mem_Iio, startAt_eq (by omega)]
    exact hids _ (List.getElem_mem _)
  · obtain ⟨hi, hci⟩ := Finset.mem_filter.1 hi
    obtain ⟨hj, hcj⟩ := Finset.mem_filter.1 hj
    rw [Finset.mem_Ico] at hi hj
    rcases Nat.lt_trichotomy i j with hlt | heq | hlt
    · exact absurd hij (hcj.ne hgr hlt le_rfl (by omega))
    · exact heq
    · exact absurd hij.symm (hci.ne hgr hlt le_rfl (by omega))

theorem one_le_node_grid {r : ℕ} (hr : r ≤ 2 ^ 32) :
    1 ≤ node_grid (nodeT r) ↔ 1 ≤ r ∧ r ≤ 2 ^ 32 - 256 := by
  unfold node_grid THREAD_N nodeT
  omega

/-! ## The window and the cuts of the raw range -/

/-- The scan never ends a window at `0`. -/
theorem scan_end_ne_zero (l : List ℕ) (s : Scan) (hs : s.new_batch_end ≠ some 0) :
    (l.foldl (scan_step edges) s).new_batch_end ≠ some 0 := by
  induction l generalizing s with
  | nil => exact hs
  | cons i l ih =>
    apply ih _
    unfold scan_step
    dsimp only
    split_ifs with h₁ h₂ h₂
    · exact fun h => h₂.1 (Option.some.inj h)
    · exact hs
    · exact fun h => h₂.1 (Option.some.inj h)
    · exact hs

/-- A window starts before the end of the raw range and does not end at `0`. -/
theorem window_ends (h : rawStart max batch < edges.length) (hmax : 1 ≤ max)
    (hwin : select_window max n edges batch = some win) :
    win.batch_start < rawEnd max edges batch ∧ 0 < win.batch_end := by
  have hinv := @scan_inv edges max batch n h
  have hlt := raw_lt h hmax
  have hne : (scan n edges batch (rawStart max batch)
      (rawEnd max edges batch)).new_batch_end ≠ some 0 := scan_end_ne_zero _ _ (by simp)
  rw [select_window_eq] at hwin
  dsimp only at hwin
  set s := scan n edges batch (rawStart max batch) (rawEnd max edges batch) with hs
  cases hsa : s.new_batch_start with
  | none => simp [hsa] at hwin
  | some a =>
    cases heb : finalEnd edges (rawEnd max edges batch) s with
    | none => simp [hsa, heb] at hwin
    | some b =>
      simp only [hsa, heb, Option.some.injEq] at hwin
      subst hwin
      refine ⟨(hinv.start_some a hsa).2.1, Nat.pos_of_ne_zero fun hb => ?_⟩
      have hb0 : b = 0 := hb
      unfold finalEnd at heb
      split_ifs at heb
      · have := Option.some.inj heb
        omega
      · exact hne (heb.trans (congrArg some hb0))

/-- A window reaches from the first to the last of the cuts. -/
theorem cutsIn_of_window (h : rawStart max batch < edges.length) (hmax : 1 ≤ max)
    (hwin : select_window max n edges batch = some win) :
    cutsIn edges (rawStart max batch) (rawEnd max edges batch) =
      insert win.batch_end
        ((Finset.Ico win.batch_start win.batch_end).filter fun i => Cut edges i) := by
  obtain ⟨hraw, hle, hend, -, hcb, hmin, hlast, -⟩ := select_window_some h hmax hwin
  ext i
  rw [mem_cutsIn, Finset.mem_insert, Finset.mem_filter, Finset.mem_Ico]
  constructor
  · rintro ⟨⟨hlo, hhi⟩, hc⟩
    have h₁ : win.batch_start ≤ i := by
      by_contra hlt
      exact hmin i hlo (by omega) hc
    have h₂ : i ≤ win.batch_end := by
      by_contra hlt
      exact hlast i (by omega) hhi hc
    by_cases heq : i = win.batch_end
    · exact Or.inl heq
    · exact Or.inr ⟨⟨h₁, by omega⟩, hc⟩
  · rintro (rfl | ⟨⟨h₁, h₂⟩, hc⟩)
    · exact ⟨⟨by omega, hend⟩, hcb⟩
    · exact ⟨⟨by omega, by omega⟩, hc⟩

/-- A batch with one cut inside its raw range has an empty window. -/
theorem window_of_one_cut (h : rawStart max batch < edges.length) (hmax : 1 ≤ max) {i : ℕ}
    (h0 : 0 < i) (hend : i < rawEnd max edges batch)
    (hone : cutsIn edges (rawStart max batch) (rawEnd max edges batch) = {i}) :
    ∃ win, select_window max n edges batch = some win ∧ win.batch_start = win.batch_end := by
  have hmem : i ∈ cutsIn edges (rawStart max batch) (rawEnd max edges batch) := by
    rw [hone]
    exact Finset.mem_singleton_self i
  obtain ⟨⟨hlo, -⟩, hc⟩ := mem_cutsIn.1 hmem
  cases hwin : select_window max n edges batch with
  | some win =>
    obtain ⟨hraw, hle, hle', hca, hcb, -⟩ := select_window_some h hmax hwin
    have ha : win.batch_start ∈ cutsIn edges (rawStart max batch) (rawEnd max edges batch) :=
      mem_cutsIn.2 ⟨⟨hraw, by omega⟩, hca⟩
    have hb : win.batch_end ∈ cutsIn edges (rawStart max batch) (rawEnd max edges batch) :=
      mem_cutsIn.2 ⟨⟨by omega, hle'⟩, hcb⟩
    rw [hone, Finset.mem_singleton] at ha hb
    exact ⟨win, rfl, ha.trans hb.symm⟩
  | none =>
    have hinv := @scan_inv edges max batch n h
    rw [select_window_eq] at hwin
    dsimp only at hwin
    set s := scan n edges batch (rawStart max batch) (rawEnd max edges batch) with hs
    cases hsa : s.new_batch_start with
    | none => exact absurd hc (hinv.start_none hsa i hlo hend)
    | some a =>
      have hai : a ≤ i := by
        by_contra hlt
        exact (hinv.start_some a hsa).2.2.2 i hlo (by omega) hc
      cases hsb : s.new_batch_end with
      | none =>
        have := hinv.end_none hsb a hsa i hai hend hc
        omega
      | some b =>
        have hfinal : finalEnd edges (rawEnd max edges batch) s ≠ none := by
          unfold finalEnd
          split_ifs <;> simp [hsb]
        obtain ⟨b', hb'⟩ := Option.ne_none_iff_exists'.1 hfinal
        simp [hsa, hb'] at hwin

/-- The window of a batch with two cuts is there. -/
theorem exists_window (h : rawStart max batch < edges.length) (hmax : 1 ≤ max)
    (htwo : 1 < (cutsIn edges (rawStart max batch) (rawEnd max edges batch)).card) :
    ∃ win, select_window max n edges batch = some win := by
  obtain ⟨i, hi, j, hj, hij⟩ := Finset.one_lt_card.1 htwo
  obtain ⟨⟨hi₁, hi₂⟩, hci⟩ := mem_cutsIn.1 hi
  obtain ⟨⟨hj₁, hj₂⟩, hcj⟩ := mem_cutsIn.1 hj
  by_contra hnone
  have hwin : select_window max n edges batch = none := by
    cases hw : select_window max n edges batch with
    | none => rfl
    | some win => exact absurd ⟨win, hw⟩ hnone
  rcases Nat.lt_or_gt_of_ne hij with hlt | hlt
  · exact select_window_none h hmax hwin hi₁ hlt hj₂ hci hcj
  · exact select_window_none h hmax hwin hj₁ hlt hi₂ hcj hci

/-- What a window launches depends on the number of cuts. -/
theorem launches_window (hgr : Grouped edges) (hids : ∀ e ∈ edges, e.edge_start < 2 ^ 32)
    (h : rawStart max batch < edges.length) (hmax : 1 ≤ max)
    (hwin : select_window max n edges batch = some win) :
    Launches (slice edges win.batch_start win.batch_end) ↔
      1 < (cutsIn edges (rawStart max batch) (rawEnd max edges batch)).card ∧
        (cutsIn edges (rawStart max batch) (rawEnd max edges batch)).card ≤ 2 ^ 32 - 255 := by
  obtain ⟨-, hle, hend, hca, -⟩ := select_window_some h hmax hwin
  have hlen : win.batch_end ≤ edges.length := hend.trans (Nat.min_le_left _ _)
  have hcard : (cutsIn edges (rawStart max batch) (rawEnd max edges batch)).card =
      ((Finset.Ico win.batch_start win.batch_end).filter fun i => Cut edges i).card + 1 := by
    rw [cutsIn_of_window h hmax hwin, Finset.card_insert_of_notMem]
    intro hmem
    exact absurd (Finset.mem_Ico.1 (Finset.mem_filter.1 hmem).1).2 (lt_irrefl _)
  have hr := card_cuts_le hgr hids hlen (a := win.batch_start)
  unfold Launches
  rw [unique_count_slice hlen hca, one_le_node_grid hr, length_slice hlen, hcard]
  constructor
  · rintro ⟨-, -, h₁, h₂⟩
    exact ⟨by omega, by omega⟩
  · rintro ⟨h₁, h₂⟩
    obtain ⟨i, hi⟩ := Finset.card_pos.1 (by omega :
      0 < ((Finset.Ico win.batch_start win.batch_end).filter fun i => Cut edges i).card)
    have := Finset.mem_Ico.1 (Finset.mem_filter.1 hi).1
    refine ⟨by omega, ?_, by omega, by omega⟩
    unfold edge_grid THREAD_N
    omega

/-- **When every launch has a block.**  A batch that is not skipped has an edge and only grids with
blocks, exactly when the groups do not start or end at a single place inside its raw range, and
there are not so many that the grid of the sources wraps. -/
theorem launches_iff (max n : ℕ) (edges : List Edge) (batch : ℕ) (hgr : Grouped edges)
    (hids : ∀ e ∈ edges, e.edge_start < 2 ^ 32) (hmax : 1 ≤ max)
    (hbatch : batch < batch_count edges.length max) :
    (∀ win, select_window max n edges batch = some win →
        Launches (slice edges win.batch_start win.batch_end)) ↔
      (∀ i, 0 < i → i < rawEnd max edges batch →
          cutsIn edges (rawStart max batch) (rawEnd max edges batch) ≠ {i}) ∧
        (cutsIn edges (rawStart max batch) (rawEnd max edges batch)).card ≤ 2 ^ 32 - 255 := by
  have h : rawStart max batch < edges.length := (lt_batch_count hmax).1 hbatch
  constructor
  · intro hall
    refine ⟨fun i h0 hend hone => ?_, ?_⟩
    · obtain ⟨win, hwin, -⟩ := window_of_one_cut (n := n) h hmax h0 hend hone
      have := (launches_window hgr hids h hmax hwin).1 (hall win hwin)
      rw [hone, Finset.card_singleton] at this
      exact absurd this.1 (lt_irrefl 1)
    · by_contra hmany
      obtain ⟨win, hwin⟩ := exists_window (n := n) h hmax (by omega)
      exact hmany ((launches_window hgr hids h hmax hwin).1 (hall win hwin)).2
  · rintro ⟨hone, hfew⟩ win hwin
    refine (launches_window hgr hids h hmax hwin).2 ⟨?_, hfew⟩
    obtain ⟨hraw, hle, hend, hca, hcb, -⟩ := select_window_some h hmax hwin
    have ha : win.batch_start ∈ cutsIn edges (rawStart max batch) (rawEnd max edges batch) :=
      mem_cutsIn.2 ⟨⟨hraw, by omega⟩, hca⟩
    have hpos := Finset.card_pos.2 ⟨_, ha⟩
    by_contra hcard
    have hsingle : cutsIn edges (rawStart max batch) (rawEnd max edges batch) =
        {win.batch_start} :=
      (Finset.eq_of_subset_of_card_le (Finset.singleton_subset_iff.2 ha)
        (by rw [Finset.card_singleton]; omega)).symm
    have hb : win.batch_end ∈ cutsIn edges (rawStart max batch) (rawEnd max edges batch) :=
      mem_cutsIn.2 ⟨⟨by omega, hend⟩, hcb⟩
    rw [hsingle, Finset.mem_singleton] at hb
    obtain ⟨hlt, hpos⟩ := window_ends h hmax hwin
    exact hone _ (by omega) hlt hsingle

/-- Two groups of edges.  In the raw range of the second batch of two edges one ends and the other
starts, and nothing else does. -/
def cutGraph : Graph where
  node_n := 2
  edges := [⟨0, 0, 1⟩, ⟨0, 1, 1⟩, ⟨0, 0, 1⟩, ⟨1, 0, 1⟩, ⟨1, 1, 1⟩]

theorem launches_iff_cutGraph :
    (∀ win, select_window 3 2 cutGraph.edges 0 = some win →
        Launches (slice cutGraph.edges win.batch_start win.batch_end)) ↔
      (∀ i, 0 < i → i < rawEnd 3 cutGraph.edges 0 →
          cutsIn cutGraph.edges (rawStart 3 0) (rawEnd 3 cutGraph.edges 0) ≠ {i}) ∧
        (cutsIn cutGraph.edges (rawStart 3 0) (rawEnd 3 cutGraph.edges 0)).card ≤ 2 ^ 32 - 255 :=
  launches_iff 3 2 cutGraph.edges 0 (by decide) (by decide) (by decide) (by decide)

/-- The second batch of two edges is not skipped, and its window is empty. -/
theorem cutGraph_empty : Grouped cutGraph.edges ∧ 1 < batch_count cutGraph.edges.length 2 ∧
    ∃ win, select_window 2 2 cutGraph.edges 1 = some win ∧
      win.batch_end - win.batch_start = 0 ∧
        ¬ Launches (slice cutGraph.edges win.batch_start win.batch_end) := by
  refine ⟨by decide, by decide, ?_⟩
  obtain ⟨win, hwin, heq⟩ := @window_of_one_cut cutGraph.edges 2 2 1 (by decide) (by decide) 3
    (by decide) (by decide) (by decide)
  refine ⟨win, hwin, by omega, fun hl => ?_⟩
  have := hl.1
  rw [heq, slice, Nat.sub_self, List.take_zero] at this
  exact absurd this (by decide)

end Rbsc.Host
