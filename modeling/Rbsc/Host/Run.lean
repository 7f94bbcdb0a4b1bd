import Rbsc.Host.Round

/-!
# Runs

What holds at the start of every round of a run whose node kernels have a grid that covers all nodes
(`RunInv`), and the termination of the run, whatever the sums are (`terminates_iff`).  A run whose
first batches are all skipped has one round, and its grid does not matter (`AtRound.fits`).

* `Input`: what the theorems about runs ask of the graph;
* `Terminates`: every pass refines, the refinements and the rounds end;
* with a grid that has wrapped to zero blocks, the retry loop of the first refinement need not end
  (`not_terminates`).
-/

namespace Rbsc.Host

open Arrays DoWhile Gpu Labelling Lumping DenseRank

/-- A graph with a node and an edge, ids in range and grouped sources. -/
structure Input (g : Graph) : Prop where
  node_pos : 1 ≤ g.node_n
  nonempty : g.edges ≠ []
  ids : IdsBelow g.node_n g.edges
  grouped : Grouped g.edges

/-- At the start of round `k`. -/
structure RunInv (g : Graph) (k : ℕ) (s : State) : Prop where
  pos : 1 ≤ s.new_node_n
  /-- Every round so far has lost a node. -/
  le : s.new_node_n + k ≤ g.node_n
  nonempty : s.edges ≠ []
  ids : IdsBelow s.new_node_n s.edges
  grouped : Grouped s.edges

/-- The devices before the batches are not restricted. -/
abbrev anyDevice : ℕ → Device → Prop := fun _ _ => True

section Inv

variable {cub : Cub} {sums : SumsOf} {extra : ℕ → ℕ → Bool} {max : ℕ} {g : Graph} {dev : Device}
  {fuel k : ℕ} {s s' : State}

theorem startsIn_any : StartsIn cub sums max anyDevice s := fun _ _ _ _ _ => trivial

theorem again_iff : again extra s = true ↔
    1 < s.batches ∧ extra s.batches s.edges.length = true ∧ s.new_node_n < s.node_n := by
  simp [again, and_assoc]

theorem RunInv.init (hg : Input g) (dev : Device) : RunInv g 0 (init g dev) :=
  ⟨hg.node_pos, le_rfl, hg.nonempty, hg.ids, hg.grouped⟩

theorem RunInv.round_spec (h : RunInv g k s) (hfit : KernelsFit max s.new_node_n s.edges)
    (hmax : 1 ≤ max) {Q : ℕ → Device → Prop} (hQ : StartsIn cub sums max Q s)
    (hr : round cub sums max fuel s = some s') : RoundPost cub sums max Q s s' := by
  have hlt := hfit.lt
  exact Host.round_spec (by omega) h.grouped h.nonempty hmax hQ (hfit.smallParts hmax h.pos) hr

/-- What the next round starts with, after a round that leaves the quotient of its edges. -/
theorem RunInv.next_quotient (h : RunInv g k s) (hn : s'.node_n = s.new_node_n)
    (hb : s'.batches = batch_count s.edges.length max)
    (hlab : ∀ v < s.new_node_n, s'.w v < s'.new_node_n)
    (hedges : s'.edges = if 1 < batch_count s.edges.length max then quotientEdges s'.w s.edges
      else s.edges) (ha : again extra s' = true) : RunInv g (k + 1) s' := by
  obtain ⟨hb', -, hlt⟩ := again_iff.1 ha
  rw [hb] at hb'
  rw [if_pos hb'] at hedges
  rw [hn] at hlt
  have hle := h.le
  refine ⟨Nat.zero_lt_of_lt (hlab 0 h.pos), by omega, ?_, ?_, ?_⟩
  · rw [hedges]; exact quotientEdges_ne_nil h.nonempty
  · rw [hedges]; exact quotientEdges_ids h.ids hlab
  · rw [hedges]; exact quotientEdges_grouped h.grouped

theorem RunInv.next (h : RunInv g k s) {Q : ℕ → Device → Prop}
    (hr : RoundPost cub sums max Q s s') (ha : again extra s' = true) : RunInv g (k + 1) s' :=
  h.next_quotient hr.node_n hr.batches hr.labels.lt hr.edges ha

/-- The grid covers the nodes of the next round, too: there is none after a round that skips all
batches. -/
theorem RoundPost.fits {Q : ℕ → Device → Prop} (h : RoundPost cub sums max Q s s')
    (hfit : KernelsFit max s.new_node_n s.edges) (ha : again extra s' = true) :
    KernelsFit max s'.new_node_n s'.edges := by
  obtain ⟨-, -, hlt⟩ := again_iff.1 ha
  rw [h.node_n] at hlt
  rcases hfit with hfit | ⟨-, hskip⟩
  · exact Or.inl (hfit.mono hlt.le)
  · exact absurd (h.labels.eq_of_skipped hskip) hlt.ne

/-- **A round keeps the invariant**, and the grid covers the nodes. -/
theorem RunInv.step (h : RunInv g k s) (hfit : KernelsFit max s.new_node_n s.edges) (hmax : 1 ≤ max)
    (hr : round cub sums max fuel s = some s') (ha : again extra s' = true) :
    RunInv g (k + 1) s' ∧ KernelsFit max s'.new_node_n s'.edges := by
  have hpost := h.round_spec hfit hmax startsIn_any hr
  exact ⟨h.next hpost ha, hpost.fits hfit ha⟩

theorem AtRound.inv_fits (hg : Input g) (hfit : KernelsFit max g.node_n g.edges) (hmax : 1 ≤ max)
    (hs : AtRound cub sums extra max g dev k s) :
    RunInv g k s ∧ KernelsFit max s.new_node_n s.edges := by
  obtain ⟨fuel, hs⟩ := hs
  exact hs.inv (I := fun k s => RunInv g k s ∧ KernelsFit max s.new_node_n s.edges)
    ⟨RunInv.init hg dev, hfit⟩ fun _ _ _ _ hinv hb ha => hinv.1.step hinv.2 hmax hb ha

/-- **The invariant of the run.** -/
theorem AtRound.inv (hg : Input g) (hfit : KernelsFit max g.node_n g.edges) (hmax : 1 ≤ max)
    (hs : AtRound cub sums extra max g dev k s) : RunInv g k s := (hs.inv_fits hg hfit hmax).1

/-- In every round the grid covers all nodes, or all batches are skipped. -/
theorem AtRound.fits (hg : Input g) (hfit : KernelsFit max g.node_n g.edges) (hmax : 1 ≤ max)
    (hs : AtRound cub sums extra max g dev k s) : KernelsFit max s.new_node_n s.edges :=
  (hs.inv_fits hg hfit hmax).2

end Inv

/-! ## Termination -/

/-- The loops of a run end, and the passes refine. -/
structure Terminates (cub : Cub) (sums : SumsOf) (extra : ℕ → ℕ → Bool) (max : ℕ) (g : Graph)
    (dev : Device) : Prop where
  /-- In each pass of a processed batch, equal new labels are equal old labels. -/
  refines : ∀ k s, AtRound cub sums extra max g dev k s →
    ∀ fuel, ∀ batch < batch_count s.edges.length max, ∀ b,
      run_batches cub sums max s.new_node_n s.edges fuel batch (batches_init s) = some b →
      ∀ win, windows max s.new_node_n s.edges batch = some win → ∀ j r fuel' r',
        AtPass cub (batchSums sums s.new_node_n s.edges batch win) s.new_node_n win.batch_mask
          win.off_batch_node_n b.dev j r →
        pass cub (batchSums sums s.new_node_n s.edges batch win) s.new_node_n win.batch_mask fuel' r
          = some r' →
        partition s.new_node_n r' ≤ partition s.new_node_n r
  /-- The refinement loop of a processed batch ends after at most `n + 2` passes. -/
  refine_ends : ∀ k s, AtRound cub sums extra max g dev k s →
    ∀ fuel, ∀ batch < batch_count s.edges.length max, ∀ b,
      run_batches cub sums max s.new_node_n s.edges fuel batch (batches_init s) = some b →
      ∀ win, windows max s.new_node_n s.edges batch = some win →
        ∃ r, refine_loop cub (batchSums sums s.new_node_n s.edges batch win) s.new_node_n
          win.batch_mask win.off_batch_node_n (g.node_n + 2) b.dev = some r
  /-- A round gives no more labels than there are nodes. -/
  round_le : ∀ k s, AtRound cub sums extra max g dev k s → ∀ fuel s',
    round cub sums max fuel s = some s' → s'.new_node_n ≤ s'.node_n
  /-- There are at most `n` rounds. -/
  rounds_le : ∀ k s, AtRound cub sums extra max g dev k s → k < g.node_n
  /-- The run ends. -/
  ends : ∃ fuel s, rbsc cub sums extra max g dev fuel = some s

/-- **A run terminates**, whatever the sums are, when the grid of the node kernels fits. -/
theorem terminates_of_kernelsFit (cub : Cub) (sums : SumsOf) (extra : ℕ → ℕ → Bool) (max : ℕ)
    (g : Graph) (dev : Device) (hg : Input g) (hmax : 1 ≤ max)
    (hfit : KernelsFit max g.node_n g.edges) : Terminates cub sums extra max g dev where
  refines k s hs fuel batch hb b hbat win hwin j r fuel' r' hr hp := by
    obtain ⟨hinv, hfits⟩ := hs.inv_fits hg hfit hmax
    have hgrid := hfits.gridFits hmax hwin
    exact (hr.spec hgrid hinv.pos hp).le hgrid
  refine_ends k s hs fuel batch hb b hbat win hwin := by
    obtain ⟨hinv, hfits⟩ := hs.inv_fits hg hfit hmax
    have hle := hinv.le
    exact refine_returns cub _ win.batch_mask win.off_batch_node_n b.dev (hfits.gridFits hmax hwin)
      hinv.pos (by omega)
  round_le k s hs fuel s' hr := by
    obtain ⟨hinv, hfits⟩ := hs.inv_fits hg hfit hmax
    obtain ⟨hn, -, hspec, -⟩ := hinv.round_spec hfits hmax startsIn_any hr
    rw [hn]
    exact hspec.le
  rounds_le k s hs := by
    have hinv := hs.inv hg hfit hmax
    have h₁ := hinv.pos
    have h₂ := hinv.le
    omega
  ends := by
    -- the fuel serves the rounds and the passes of every round
    have hbody : ∀ k s, Entered (round cub sums max (g.node_n + 1)) (again extra) (init g dev) k s →
        ∃ s', round cub sums max (g.node_n + 1) s = some s' := fun k s hs => by
      obtain ⟨hinv, hfits⟩ := AtRound.inv_fits hg hfit hmax ⟨_, hs⟩
      have hle := hinv.le
      exact round_returns hfits hmax hinv.pos (by omega)
    obtain ⟨s, hs⟩ := doWhile_returns hbody fun k s hs => by
      have hinv := AtRound.inv hg hfit hmax ⟨_, hs⟩
      have hle := hinv.le
      exact (by omega : k ≤ g.node_n)
    exact ⟨g.node_n + 1, s, hs⟩

/-! ## A grid of zero blocks -/

section Wrapped

variable {cub : Cub} {sums : Sums} {n : ℕ} {batch_mask : Arr Mask} {off fuel k : ℕ} {d : Device}
  {r r' : Refine}

/-- No truth is written. -/
theorem classify_wrapped (hn : n + 1 < 2 ^ 32) (hw : ¬ GridFits n) (d : Device) :
    (classify cub n batch_mask d).d_truths = d.d_truths := by
  have ht := threads_wrapped (Nat.lt_of_succ_lt hn) hw
  change compute_thruths_lex (node_grid n) _ _ _ d.d_truths n = _
  rw [compute_thruths_lex, ht]
  rfl

/-- A refinement that starts with zero truths does not end. -/
theorem refine_loop_wrapped (hn : n + 1 < 2 ^ 32) (h0 : 0 < n) (hw : ¬ GridFits n)
    (hd : ∀ i, d.d_truths i = 0) : refine_loop cub sums n batch_mask off fuel d = none := by
  cases fuel with
  | zero => rfl
  | succ fuel =>
    have hpass : pass cub sums n batch_mask (fuel + 1) (refine_init n batch_mask off d) = none := by
      set r₀ := refine_init n batch_mask off d with hr₀
      have htr : (classify cub n batch_mask (sums r₀.it r₀.dev)).d_truths = d.d_truths := by
        rw [classify_wrapped hn hw, sums.keeps_truths]
        rfl
      have hcs : (classify cub n batch_mask (sums r₀.it r₀.dev)).d_cumsum (n - 1) = 0 := by
        change store (cub.inclusiveSum (toList n
          (classify cub n batch_mask (sums r₀.it r₀.dev)).d_truths)) _ (n - 1) = 0
        have hzero : ((toList n d.d_truths).take (n - 1 + 1)).sum = 0 :=
          List.sum_eq_zero fun x hx => by
            obtain ⟨i, -, rfl⟩ := mem_toList.1 (List.mem_of_mem_take hx)
            exact hd i
        rw [htr, cub.inclusiveSum_eq, store_of_lt _ (by simp; omega), List.getElem_map,
          List.getElem_range, hzero]
        rfl
      have hnone : ∀ t, retry cub n (nodeT
          ((classify cub n batch_mask (sums r₀.it r₀.dev)).d_cumsum (n - 1) + 1)) (fuel + 1) t =
            none := by
        intro t
        rw [hcs]
        refine Option.eq_none_iff_forall_ne_some.2 fun t' ht' => ?_
        obtain ⟨k, -, s, -, hb, ha⟩ := doWhile_eq_some_iff.1 ht'
        rw [retry_wrapped (Nat.lt_of_succ_lt hn) hw hb] at ha
        simp [nodeT] at ha
      exact congrArg (Option.map _) (hnone _)
    rw [refine_loop, doWhile, hpass]
    rfl

end Wrapped

/-- A device with zero everywhere. -/
def zeroDevice : Device where
  d_w := .const 0
  d_z := .const 0
  d_buffer := .const 0
  d_indexes := .const 0
  d_sorted_indexes := .const 0
  d_truths := .const 0
  d_cumsum := .const 0

section Iff

variable {cub : Cub} {sums : SumsOf} {extra : ℕ → ℕ → Bool} {max : ℕ} {g : Graph} {fuel : ℕ}

/-- Skipped batches leave everything as it is. -/
theorem run_batches_skipped {n : ℕ} {edges : List Edge} (b : Batches) :
    ∀ m, (∀ k < m, windows max n edges k = none) →
      run_batches cub sums max n edges fuel m b = some b
  | 0, _ => rfl
  | m + 1, h => by
    rw [run_batches_succ, run_batches_skipped b m fun k hk => h k (by omega), Option.bind_some]
    have hm : select_window max n edges m = none := h m (by omega)
    rw [run_batch, hm]

/-- **A grid that has wrapped**: from a device with zeros, the first batch that is not skipped
is refined forever. -/
theorem not_terminates (hn : g.node_n + 1 < 2 ^ 32) (h0 : 0 < g.node_n) (hw : ¬ GridFits g.node_n)
    {k : ℕ} (hk : k < batch_count g.edges.length max)
    (hwin : windows max g.node_n g.edges k ≠ none) :
    ¬ Terminates cub sums extra max g zeroDevice := by
  intro h
  -- the first batch that is not skipped
  obtain ⟨k₀, hk₀, hmin⟩ : ∃ k, windows max g.node_n g.edges k ≠ none ∧
      ∀ j < k, windows max g.node_n g.edges j = none := by
    classical
    have hex : ∃ k, windows max g.node_n g.edges k ≠ none := ⟨k, hwin⟩
    exact ⟨Nat.find hex, Nat.find_spec hex, fun j hj => not_not.1 (Nat.find_min hex hj)⟩
  have hk₀k : k₀ ≤ k := by
    by_contra hlt
    exact hwin (hmin k (by omega))
  obtain ⟨win, hw₀⟩ := Option.ne_none_iff_exists'.1 hk₀
  obtain ⟨r, hr⟩ := h.refine_ends 0 (init g zeroDevice) ⟨0, .start⟩ 0 k₀
    (hk₀k.trans_lt hk) (batches_init (init g zeroDevice)) (run_batches_skipped _ k₀ hmin) win hw₀
  have hnone : refine_loop cub (batchSums sums g.node_n g.edges k₀ win) g.node_n win.batch_mask
      win.off_batch_node_n (g.node_n + 2) zeroDevice = none :=
    refine_loop_wrapped hn h0 hw fun _ => rfl
  exact absurd (hr.symm.trans hnone) (by simp)

/-- **When a run terminates.**  Whatever the sums and the first contents of the device are: exactly
when the grid of the node kernels fits, or all batches of the first round are skipped. -/
theorem terminates_iff (cub : Cub) (sums : SumsOf) (extra : ℕ → ℕ → Bool) (max : ℕ) (g : Graph)
    (hg : Input g) (hmax : 1 ≤ max) (hn : g.node_n + 1 < 2 ^ 32) :
    (∀ dev, Terminates cub sums extra max g dev) ↔
      GridFits g.node_n ∨
        ∀ k < batch_count g.edges.length max, windows max g.node_n g.edges k = none := by
  constructor
  · intro h
    by_contra hno
    push Not at hno
    obtain ⟨hw, k, hk, hwin⟩ := hno
    exact not_terminates hn hg.node_pos hw hk hwin (h zeroDevice)
  · exact fun hfit dev => terminates_of_kernelsFit cub sums extra max g dev hg hmax
      (hfit.imp_right fun hskip => ⟨hn, hskip⟩)

end Iff

/-- With batches of two edges, nodes `2` and `3` are joined in the first round, and then `0` and `1`,
whose edges lead to them, in the second. -/
def ladderGraph : Graph := ⟨5, [⟨0, 2, 1⟩, ⟨1, 3, 1⟩, ⟨2, 4, 1⟩, ⟨3, 4, 1⟩]⟩

theorem ladderGraph_input : Input ladderGraph where
  node_pos := by decide
  nonempty := by decide
  ids := by decide
  grouped := by decide

theorem terminates_iff_ladderGraph :
    Terminates Cub.reference (device_sums Cub.reference) rbsc_extra 2 ladderGraph zeroDevice :=
  (terminates_iff Cub.reference (device_sums Cub.reference) rbsc_extra 2 ladderGraph
    ladderGraph_input (by decide) (by decide)).2 (Or.inl (by decide)) zeroDevice

/-- One edge, among `2 ^ 32 - 2` nodes. -/
def wideGraph : Graph := ⟨2 ^ 32 - 2, [⟨0, 1, 1⟩]⟩

/-- **A run that does not end**: the retry loop of its first pass never finds its count. -/
theorem wideGraph_not_terminates : Input wideGraph ∧ wideGraph.node_n + 1 < 2 ^ 32 ∧
    ¬ Terminates Cub.reference (device_sums Cub.reference) rbsc_extra 1 wideGraph zeroDevice := by
  refine ⟨⟨by decide, by decide, by decide, by decide⟩, by decide, ?_⟩
  have hpos : 0 < wideGraph.edges.length := by decide
  obtain ⟨win, hwin, -⟩ := select_window_single wideGraph.node_n hpos (le_refl 1)
  exact not_terminates (by decide) (by decide) (by decide) (k := 0) (by decide)
    (fun hnone => absurd (hwin.symm.trans hnone) (by simp))

end Rbsc.Host
