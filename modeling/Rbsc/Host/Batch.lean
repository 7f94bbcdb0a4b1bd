import Rbsc.Host.Wrap

/-!
# The coarsest partition of a window

What the refinement of a batch is for: the coarsest of the partitions of a window
(`WindowPartition`), in which the nodes of other batches stand alone, the dangling nodes stand
together, and sources that stand together have equal weights into every class.  In every round, the
labels that a refinement stops at are never finer than it, and without collisions they are it
(`batch_coarsest`).
-/

namespace Rbsc.Host

open Arrays DoWhile Gpu Labelling Lumping

/-- A partition of a window, by the weights of all edges of the round. -/
structure WindowPartition (n : ℕ) (edges : List Edge) (batch_mask : Arr Mask) (p : Setoid (Fin n)) :
    Prop where
  /-- The nodes of other batches stand alone. -/
  off_batch : ∀ u v : Fin n, batch_mask u = .OFF_BATCH → p u v → u = v
  /-- The dangling nodes are one class. -/
  dangling : ∀ u v : Fin n, batch_mask u = .DANGLING → (p u v ↔ batch_mask v = .DANGLING)
  /-- Sources of one class have the same total weight into every class. -/
  in_batch : ∀ u v : Fin n, batch_mask u = .IN_BATCH → batch_mask v = .IN_BATCH → p u v →
    SameWeights (weights edges n) p u v

section Window

variable {max n k : ℕ} {edges : List Edge} {win : Window} {p : Setoid (Fin n)}

/-- Dangling nodes, or one node. -/
def danglingPartition (n : ℕ) (batch_mask : Arr Mask) : Setoid (Fin n) :=
  Setoid.ker fun v : Fin n => if batch_mask v = .DANGLING then none else some v

theorem danglingPartition_iff {batch_mask : Arr Mask} {u v : Fin n} :
    danglingPartition n batch_mask u v ↔
      u = v ∨ batch_mask u = .DANGLING ∧ batch_mask v = .DANGLING := by
  change (if batch_mask u = .DANGLING then none else some u) =
    (if batch_mask v = .DANGLING then none else some v) ↔ _
  by_cases hu : batch_mask u = .DANGLING <;> by_cases hv : batch_mask v = .DANGLING
  · simp [hu, hv]
  · simp only [hu, hv, if_true, if_false]
    apply iff_of_false (by simp)
    rintro (rfl | ⟨-, h⟩)
    · exact hv hu
    · exact absurd h (by simp)
  · simp only [hu, hv, if_true, if_false]
    apply iff_of_false (by simp)
    rintro (rfl | ⟨h, -⟩)
    · exact hu hv
    · exact absurd h (by simp)
  · simp [hu, hv]

/-- The dangling nodes of a window are equivalent in it. -/
theorem danglingPartition_le (hok : WindowOk n (slice edges win.batch_start win.batch_end)
    win.batch_mask) : danglingPartition n win.batch_mask ≤
      coarsest (weights (slice edges win.batch_start win.batch_end) n)
        (maskPartition n win.batch_mask) := by
  refine le_coarsest (fun u v huv => ?_) fun u v huv => ?_
  · rcases danglingPartition_iff.1 huv with rfl | ⟨hu, hv⟩
    · exact (maskPartition n win.batch_mask).refl _
    · exact maskPartition_iff.2 (Or.inr ⟨hu.trans hv.symm, by simp [hu]⟩)
  · rcases danglingPartition_iff.1 huv with rfl | ⟨hu, hv⟩
    · exact SameWeights.refl _
    · exact sameWeights_of_not_in hok _ (by simp [hu]) (by simp [hv])

/-- A partition of the window by all edges is stable for the edges of the window. -/
theorem WindowPartition.stable (hgr : Grouped edges) (hids : IdsBelow n edges) (hmax : 1 ≤ max)
    (hk : k < batch_count edges.length max) (hwin : windows max n edges k = some win)
    (h : WindowPartition n edges win.batch_mask p) :
    p ≤ maskPartition n win.batch_mask ∧
      Stable (weights (slice edges win.batch_start win.batch_end) n) p := by
  have hok := (windowSpec_of_some hgr hmax hk hwin).windowOk hgr hids
  -- the nodes of a class have one mask
  have hmask : ∀ u v, p u v → u = v ∨
      win.batch_mask u = win.batch_mask v ∧ win.batch_mask u ≠ .OFF_BATCH := by
    intro u v huv
    by_cases hu : win.batch_mask u = .OFF_BATCH
    · exact Or.inl (h.off_batch u v hu huv)
    · refine (em (u = v)).imp id fun hne => ⟨?_, hu⟩
      cases hv : win.batch_mask v with
      | OFF_BATCH => exact absurd (h.off_batch v u hv (p.symm huv)).symm hne
      | DANGLING => exact (h.dangling v u hv).1 (p.symm huv)
      | IN_BATCH =>
        cases hm : win.batch_mask u with
        | OFF_BATCH => exact absurd hm hu
        | IN_BATCH => rfl
        | DANGLING => exact absurd ((h.dangling u v hm).1 huv) (by simp [hv])
  refine ⟨fun u v huv => maskPartition_iff.2 (hmask u v huv), fun u v huv => ?_⟩
  rcases hmask u v huv with rfl | ⟨hm, hoff⟩
  · exact SameWeights.refl _
  · by_cases hu : win.batch_mask u = .IN_BATCH
    · have hv : win.batch_mask v = .IN_BATCH := hm ▸ hu
      exact sameWeights_of_rows (fun y => (weights_slice hgr hmax hk hwin hoff y).symm)
        (fun y => (weights_slice hgr hmax hk hwin (hm ▸ hoff) y).symm) (h.in_batch u v hu hv huv)
    · exact sameWeights_of_not_in hok _ hu (hm ▸ hu)

/-- **The coarsest partition of a window.** -/
theorem isGreatest_coarsest (hgr : Grouped edges) (hids : IdsBelow n edges) (hmax : 1 ≤ max)
    (hk : k < batch_count edges.length max) (hwin : windows max n edges k = some win) :
    IsGreatest {p | WindowPartition n edges win.batch_mask p}
      (coarsest (weights (slice edges win.batch_start win.batch_end) n)
        (maskPartition n win.batch_mask)) := by
  have hok := (windowSpec_of_some hgr hmax hk hwin).windowOk hgr hids
  constructor
  · refine ⟨fun u v hu huv => ?_, fun u v hu => ⟨fun huv => ?_, fun hv => ?_⟩,
      fun u v hu hv huv => ?_⟩
    · rcases maskPartition_iff.1 (coarsest_le _ _ huv) with h | ⟨-, hoff⟩
      · exact h
      · exact absurd hu hoff
    · rcases maskPartition_iff.1 (coarsest_le _ _ huv) with rfl | ⟨hm, -⟩
      · exact hu
      · exact hm ▸ hu
    · exact danglingPartition_le hok (danglingPartition_iff.2 (Or.inr ⟨hu, hv⟩))
    · exact sameWeights_of_rows (weights_slice hgr hmax hk hwin (by simp [hu]))
        (weights_slice hgr hmax hk hwin (by simp [hv])) (coarsest_stable _ _ u v huv)
  · intro p hp
    obtain ⟨hle, hst⟩ := hp.stable hgr hids hmax hk hwin
    exact le_coarsest hle hst

end Window

/-- **What a refinement stops at**, in every round of a run and from whatever is on the device:
labels that are never finer than the coarsest partition of the window, and are it when the passes
have no collision. -/
theorem batch_coarsest (cub : Cub) (extra : ℕ → ℕ → Bool) (max : ℕ) (g : Graph) (dev : Device)
    (hg : Input g) (hmax : 1 ≤ max) (hfit : KernelsFit max g.node_n g.edges) (k : ℕ) (s : State)
    (hs : AtRound cub (device_sums cub) extra max g dev k s) (batch : ℕ)
    (hbatch : batch < batch_count s.edges.length max) (win : Window)
    (hwin : windows max s.new_node_n s.edges batch = some win) (fuel : ℕ) (d : Device) (r : Refine)
    (hr : refine_loop cub (batchSums (device_sums cub) s.new_node_n s.edges batch win) s.new_node_n
      win.batch_mask win.off_batch_node_n fuel d = some r) :
    ∃ c, IsGreatest {p | WindowPartition s.new_node_n s.edges win.batch_mask p} c ∧
      c ≤ labelPartition s.new_node_n r.dev.d_w ∧
      (CollisionFree cub s.new_node_n (slice s.edges win.batch_start win.batch_end) win.batch_mask
        win.off_batch_node_n d → labelPartition s.new_node_n r.dev.d_w = c) := by
  obtain ⟨hinv, hfits⟩ := hs.inv_fits hg hfit hmax
  have hgrid := hfits.gridFits hmax hwin
  have hspec := windowSpec_of_some hinv.grouped hmax hbatch hwin
  have hok := hspec.windowOk hinv.grouped hinv.ids
  refine ⟨_, isGreatest_coarsest hinv.grouped hinv.ids hmax hbatch hwin, ?_, fun hcf => ?_⟩
  · obtain ⟨j, r₀, hr₀, hp, -⟩ := exists_last_pass hr
    exact coarsest_le_pass hgrid hinv.pos hok hr₀ hp
  · exact partition_eq_coarsest hgrid hinv.pos hok hspec.off_count hcf hr

theorem batch_coarsest_pairGraph : ∃ win r, windows 1 2 pairGraph.edges 0 = some win ∧
    refine_loop Cub.reference (batchSums (device_sums Cub.reference) 2 pairGraph.edges 0 win) 2
      win.batch_mask win.off_batch_node_n 3 zeroDevice = some r ∧
    ∃ c, IsGreatest {p | WindowPartition 2 pairGraph.edges win.batch_mask p} c ∧
      c ≤ labelPartition 2 r.dev.d_w ∧
      (CollisionFree Cub.reference 2 (slice pairGraph.edges win.batch_start win.batch_end)
        win.batch_mask win.off_batch_node_n zeroDevice → labelPartition 2 r.dev.d_w = c) := by
  obtain ⟨win, hwin⟩ := Option.ne_none_iff_exists'.1
    (show windows 1 2 pairGraph.edges 0 ≠ none by decide)
  obtain ⟨r, hr⟩ := refine_returns Cub.reference
    (batchSums (device_sums Cub.reference) 2 pairGraph.edges 0 win) win.batch_mask
    win.off_batch_node_n zeroDevice (by decide) (by decide : 0 < 2) le_rfl
  exact ⟨win, r, hwin, hr, batch_coarsest Cub.reference rbsc_extra 1 pairGraph zeroDevice
    pairGraph_input.toInput le_rfl (by decide) 0 (init pairGraph zeroDevice) ⟨0, .start⟩ 0 (by decide)
    win hwin 3 zeroDevice r hr⟩

/-- **A refinement without collisions that puts a source and a dangling node together.** -/
theorem wrapped_not_windowPartition : WeightedInput wideGraph ∧ wideGraph.node_n + 1 < 2 ^ 32 ∧
    ∃ win r, windows 1 wideGraph.node_n wideGraph.edges 0 = some win ∧
      win.batch_start < win.batch_end ∧
      refine_loop Cub.reference
        (batchSums (device_sums Cub.reference) wideGraph.node_n wideGraph.edges 0 win)
        wideGraph.node_n win.batch_mask win.off_batch_node_n 2 leftDevice = some r ∧
      CollisionFree Cub.reference wideGraph.node_n
        (slice wideGraph.edges win.batch_start win.batch_end) win.batch_mask win.off_batch_node_n
        leftDevice ∧
      ¬ WindowPartition wideGraph.node_n wideGraph.edges win.batch_mask
        (labelPartition wideGraph.node_n r.dev.d_w) := by
  have hn : wideGraph.node_n + 1 < 2 ^ 32 := by decide
  have h0 : 0 < wideGraph.node_n := by decide
  have hw : ¬ GridFits wideGraph.node_n := by decide
  obtain ⟨win, hwin, hstart, hend⟩ := select_window_single wideGraph.node_n
    (show 0 < wideGraph.edges.length by decide) (le_refl 1)
  obtain ⟨r, hr⟩ := refine_loop_held Cub.reference
    (batchSums (device_sums Cub.reference) wideGraph.node_n wideGraph.edges 0 win) win.batch_mask
    win.off_batch_node_n 0 hn h0 hw (blank_leftDevice h0)
  refine ⟨wideGraph_input, hn, win, r, hwin, by rw [hstart, hend]; decide, hr, ?_, fun hp => ?_⟩
  · exact collisionFreeRun_one Cub.reference rbsc_extra wideGraph leftDevice 0
      (init wideGraph leftDevice) ⟨0, .start⟩ 0 0 (by decide) _ rfl win hwin
  · -- node `0` has an edge and node `1` has none
    have hspec := windowSpec_of_some wideGraph_input.grouped le_rfl (by decide) hwin
    have hheld := (blank_leftDevice h0).refine hn h0 hw hr
    have hlt : 1 < wideGraph.node_n := by decide
    have hdangling : win.batch_mask 1 = .DANGLING := (hspec.dangling_iff 1 hlt).2 ⟨rfl, by decide⟩
    have htogether : labelPartition wideGraph.node_n r.dev.d_w ⟨1, hlt⟩ ⟨0, h0⟩ :=
      (hheld.d_w 1 hlt).trans (hheld.d_w 0 h0).symm
    have h₁ : win.batch_mask 0 = .DANGLING :=
      (hp.dangling ⟨1, hlt⟩ ⟨0, h0⟩ hdangling).1 htogether
    exact absurd ((hspec.dangling_iff 0 h0).1 h₁).2 (by decide)

end Rbsc.Host
