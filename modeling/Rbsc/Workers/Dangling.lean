import Rbsc.Host.Groups
import Rbsc.Workers.Progress

/-!
# The nodes without edges

The dangling nodes are in the first batch, where every pass keeps them together.  A round gives them
one label exactly when the first batch is not skipped, that is when the first group is no longer
than a batch, or when there is at most one of them (`dangling_merged_iff`).
-/

namespace Rbsc.Gpu

open Arrays DoWhile Lumping

variable {cub : Cub} {sums : Sums} {n : ℕ} {batch_mask : Arr Mask} {off_batch_node_n fuel k : ℕ}
  {d : Device} {r r' : Refine}

/-- A pass keeps dangling nodes together. -/
theorem PassSpec.dangling (hfit : GridFits n) (h : PassSpec sums n batch_mask r r') {u v : Fin n}
    (hu : batch_mask u = .DANGLING) (hv : batch_mask v = .DANGLING) (huv : partition n r u v) :
    partition n r' u v := by
  rw [h.partition_iff hfit, passKey_eq_iff, sums.keeps]
  refine ⟨?_, huv⟩
  simp [patched, hu, hv]

/-- **Dangling nodes stay together**, whatever the sums are. -/
theorem AtPass.dangling (hfit : GridFits n) (hn : 0 < n)
    (h : AtPass cub sums n batch_mask off_batch_node_n d k r) {u v : Fin n}
    (hu : batch_mask u = .DANGLING) (hv : batch_mask v = .DANGLING) : partition n r u v := by
  obtain ⟨fuel, h⟩ := h
  induction h with
  | start =>
    rw [partition_init hfit]
    exact Or.inr ⟨hu.trans hv.symm, by simp [hu]⟩
  | next hs hb _ ih => exact (AtPass.spec hfit hn ⟨fuel, hs⟩ hb).dangling hfit hu hv ih

theorem refine_loop_dangling (hfit : GridFits n) (hn : 0 < n)
    (h : refine_loop cub sums n batch_mask off_batch_node_n fuel d = some r) {u v : Fin n}
    (hu : batch_mask u = .DANGLING) (hv : batch_mask v = .DANGLING) : partition n r u v := by
  obtain ⟨k, r₀, hr₀, hb, -⟩ := exists_last_pass h
  exact (hr₀.spec hfit hn hb).dangling hfit hu hv (hr₀.dangling hfit hn hu hv)

end Rbsc.Gpu

namespace Rbsc.Host

open Arrays Gpu Labelling

/-- The nodes without edges have one label. -/
def DanglingMerged (n : ℕ) (edges : List Edge) (w : ℕ → ℕ) : Prop :=
  ∀ u < n, ∀ v < n, ¬ IsSource edges u → ¬ IsSource edges v → w u = w v

section Round

variable {cub : Cub} {sums : SumsOf} {max n m : ℕ} {edges : List Edge} {Q : ℕ → Device → Prop}
  {w : Arr ℕ}

/-- A node without edges is in no batch but the first. -/
theorem batch_eq_zero_of_dangling (hgr : Grouped edges) (hmax : 1 ≤ max) {k v : ℕ}
    (hk : k < batch_count edges.length max) (hv : v < n) (hd : ¬ IsSource edges v)
    (hin : InBatch (windows max n edges) k v) : k = 0 := by
  obtain ⟨win, hwin, hoff⟩ := hin
  have hspec := windowSpec_of_some hgr hmax hk hwin
  cases hm : win.batch_mask v with
  | OFF_BATCH => exact absurd hm hoff
  | DANGLING => exact ((hspec.dangling_iff v hv).1 hm).1
  | IN_BATCH =>
    obtain ⟨i, hi, -, hiv⟩ := (hspec.in_iff v hv).1 hm
    have hend := hspec.end_le
    exact absurd (isSource_iff.2 ⟨i, by omega, hiv⟩) hd

/-- **When a round merges the dangling nodes.** -/
theorem RoundSpec.danglingMerged_iff (h : RoundSpec cub sums max n edges Q w m)
    (hfit : KernelsFit max n edges) (hn : 0 < n) (hgr : Grouped edges) (hne : edges ≠ [])
    (hmax : 1 ≤ max) : DanglingMerged n edges w ↔ windows max n edges 0 ≠ none ∨
      ∀ u < n, ∀ v < n, ¬ IsSource edges u → ¬ IsSource edges v → u = v := by
  obtain ⟨part, href, hlab⟩ := h
  have hd := disjoint_windows (n := n) hgr hmax
  have hB : 0 < batch_count edges.length max := batch_count_pos hmax (List.length_pos_iff.2 hne)
  constructor
  · intro hmerged
    by_cases hwin : windows max n edges 0 = none
    · right
      intro u hu v hv hdu hdv
      have hkey := (hlab.eq_iff u hu v hv).1 (hmerged u hu v hv hdu hdv)
      rcases (nodeKey_eq_iff hd hu hv).1 hkey with huv | ⟨k, hk, hin, -⟩
      · exact huv
      · have hk0 := batch_eq_zero_of_dangling hgr hmax hk hu hdu hin
        obtain ⟨win, hwin', -⟩ := hin
        rw [hk0, hwin] at hwin'
        cases hwin'
    · exact Or.inl hwin
  · rintro (hwin | hone) u hu v hv hdu hdv
    · obtain ⟨win, hwin⟩ := Option.ne_none_iff_exists'.1 hwin
      have hspec := windowSpec_of_some hgr hmax hB hwin
      have hmu : win.batch_mask u = .DANGLING := (hspec.dangling_iff u hu).2 ⟨rfl, hdu⟩
      have hmv : win.batch_mask v = .DANGLING := (hspec.dangling_iff v hv).2 ⟨rfl, hdv⟩
      obtain ⟨fuel, d, r, -, hr, hp⟩ := href 0 hB win hwin
      have hgrid := hfit.gridFits hmax hwin
      have hpart := refine_loop_dangling hgrid hn hr (u := ⟨u, hu⟩) (v := ⟨v, hv⟩) hmu hmv
      refine (hlab.eq_iff u hu v hv).2 ((nodeKey_eq_iff hd hu hv).2 (Or.inr ⟨0, hB, ?_, ?_, ?_⟩))
      · exact ⟨win, hwin, by simp [hmu]⟩
      · exact ⟨win, hwin, by simp [hmv]⟩
      · rw [hp, localLabel, localLabel]
        exact congrArg (fun x : Word => nodeT x.toNat) (labelPartition_iff.1 hpart)
    · exact congrArg w (hone u hu v hv hdu hdv)

end Round

end Rbsc.Host

namespace Rbsc.Workers

open Arrays Gpu Host Interleave

section Runs

variable {max_gpus : ℕ} {cub : Cub} {sums : SumsOf} {extra : ℕ → ℕ → Bool} {max : ℕ} {g : Graph}
  {dev : Fin max_gpus → Device} {k : ℕ} {s s' : State max_gpus}

theorem Round.roundPost (h : RunInv g k s.host) (hfit : KernelsFit max s.new_node_n s.edges)
    (hmax : 1 ≤ max) {Q : ℕ → Device → Prop} (hr : Round cub sums Q max s s') :
    RoundPost cub sums max Q s.host s'.host :=
  hr.spec (Nat.lt_of_succ_lt hfit.lt) h.grouped h.nonempty hmax (hfit.smallParts hmax h.pos)

/-- **The invariant of a run**, on any schedule. -/
theorem Reached.inv (hg : Input g) (hfit : KernelsFit max g.node_n g.edges) (hmax : 1 ≤ max)
    (h : Reached cub sums extra max g dev k s) (ha : k = 0 ∨ again extra s = true) :
    RunInv g k s.host ∧ KernelsFit max s.new_node_n s.edges := by
  induction h with
  | start => exact ⟨RunInv.init hg zeroDevice, hfit⟩
  | next _ ha₀ hr ih =>
    have ha := ha.resolve_left (Nat.succ_ne_zero _)
    obtain ⟨hinv, hfits⟩ := ih ha₀
    have hpost := hr.roundPost hinv hfits hmax
    exact ⟨hinv.next hpost ha, hpost.fits hfits ha⟩

end Runs

/-- **When the dangling nodes are merged**: in every round of a run, exactly when the first group of
edges is no longer than a batch, so that the first batch is not skipped, or when there is at most
one dangling node. -/
theorem dangling_merged_iff {max_gpus : ℕ} (cub : Cub) (extra : ℕ → ℕ → Bool) (max : ℕ) (g : Graph)
    (dev : Fin max_gpus → Device) (hg : Input g) (hmax : 1 ≤ max)
    (hfit : KernelsFit max g.node_n g.edges) {k : ℕ} {s s' : State max_gpus}
    (hs : Reached cub (device_sums cub) extra max g dev k s) (ha : k = 0 ∨ again extra s = true)
    (hr : Round cub (device_sums cub) anyDevice max s s') :
    DanglingMerged s.new_node_n s.edges s'.w ↔
      LiesIn s.edges 0 max (startAt s.edges 0) ∨
        ∀ u < s.new_node_n, ∀ v < s.new_node_n,
          ¬ IsSource s.edges u → ¬ IsSource s.edges v → u = v := by
  obtain ⟨hinv, hfits⟩ := hs.inv hg hfit hmax ha
  have hpost := hr.roundPost hinv hfits hmax
  have hfirst := first_window_iff s.host.new_node_n hinv.grouped hinv.nonempty hmax
  have hiff := hpost.labels.danglingMerged_iff hfits hinv.pos hinv.grouped hinv.nonempty
    hmax
  rw [hfirst] at hiff
  exact hiff

/-- A node with edges to two nodes without edges. -/
def forkGraph : Graph := ⟨3, [⟨0, 1, 1⟩, ⟨0, 2, 1⟩]⟩

theorem forkGraph_input : Input forkGraph where
  node_pos := by decide
  nonempty := by decide
  ids := by decide
  grouped := by decide

theorem dangling_merged_iff_forkGraph :
    ∃ s', Round Cub.reference (device_sums Cub.reference) anyDevice 2
        (init forkGraph fun _ : Fin 2 => zeroDevice) s' ∧
      (DanglingMerged 3 forkGraph.edges s'.w ↔ LiesIn forkGraph.edges 0 2 0 ∨
        ∀ u < 3, ∀ v < 3, ¬ IsSource forkGraph.edges u → ¬ IsSource forkGraph.edges v → u = v) := by
  obtain ⟨s', hs'⟩ := round_exists Cub.reference (device_sums Cub.reference) 2
    (init forkGraph fun _ : Fin 2 => zeroDevice) (by decide) (by decide) (by decide) (by decide)
  exact ⟨s', hs', dangling_merged_iff Cub.reference rbsc_extra 2 forkGraph (fun _ => zeroDevice)
    forkGraph_input (by decide) (by decide) .start (Or.inl rfl) hs'⟩

/-- **Dangling nodes that stay apart**: in batches of one edge, both batches are skipped, and every
node keeps a label of its own. -/
theorem forkGraph_not_dangling_merged : Input forkGraph ∧
    ∃ s', Round Cub.reference (device_sums Cub.reference) anyDevice 1
        (init forkGraph fun _ : Fin 1 => zeroDevice) s' ∧
      ¬ DanglingMerged forkGraph.node_n forkGraph.edges s'.w := by
  obtain ⟨s', hs'⟩ := round_exists Cub.reference (device_sums Cub.reference) 1
    (init forkGraph fun _ : Fin 1 => zeroDevice) (by decide) (by decide) (by decide) (by decide)
  refine ⟨forkGraph_input, s', hs', fun hm => ?_⟩
  have hpost := hs'.roundPost (RunInv.init forkGraph_input zeroDevice) (by decide) le_rfl
  have hiff := hpost.labels.danglingMerged_iff (by decide) (by decide) forkGraph_input.grouped
    forkGraph_input.nonempty le_rfl
  have hfirst := first_window_iff forkGraph.node_n forkGraph_input.grouped forkGraph_input.nonempty
    (le_refl 1)
  rcases hiff.1 hm with hwin | hone
  · exact absurd (hfirst.1 hwin) (by decide)
  · exact absurd (hone 1 (by decide) 2 (by decide) (by decide) (by decide)) (by decide)

end Rbsc.Workers
