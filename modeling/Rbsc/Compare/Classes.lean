import Rbsc.Rsc.Exact
import Rbsc.Host.Lumping

/-!
# Equivalent nodes stay together

Both programs keep nodes that are equivalent in the input together, whatever collides: `rsc` in
every round, and `rbsc` in every pass when one batch covers all edges.  So neither prints more than
the exact number of classes (`never_separated`).

* `single_run`: with one batch there is one round;
* `RscKeepsClasses`, `RbscKeepsClasses`: the two halves of the statement.
-/

namespace Rbsc.Compare

open Arrays DoWhile Lumping DenseRank Gpu Host

/-! ## Runs with one batch -/

section Single

variable {cub : Cub} {sums : SumsOf} {extra : ℕ → ℕ → Bool} {max : ℕ} {g : Graph} {dev : Device}
  {fuel : ℕ} {s : State}

/-- The number of batches of a round. -/
theorem round_batches {s s' : State} (h : Host.round cub sums max fuel s = some s') :
    s'.batches = batch_count s.edges.length max := by
  obtain ⟨b, -, rfl⟩ := Option.map_eq_some_iff.1 h
  split_ifs <;> rfl

/-- **A run with one batch has one round.** -/
theorem rbsc_single (hone : batch_count g.edges.length max ≤ 1) :
    rbsc cub sums extra max g dev (fuel + 1) =
      Host.round cub sums max (fuel + 1) (Host.init g dev) := by
  rw [rbsc, doWhile]
  cases h : Host.round cub sums max (fuel + 1) (Host.init g dev) with
  | none => rfl
  | some s =>
    have hb : s.batches ≤ 1 := (round_batches h).trans_le hone
    have ha : Host.again extra s = false := by
      rw [← Bool.not_eq_true, again_iff]
      omega
    simp [ha]

theorem single_run (hone : batch_count g.edges.length max ≤ 1)
    (h : rbsc cub sums extra max g dev fuel = some s) :
    ∃ fuel, Host.round cub sums max fuel (Host.init g dev) = some s := by
  cases fuel with
  | zero => cases h
  | succ fuel => exact ⟨fuel + 1, (rbsc_single hone).symm.trans h⟩

end Single

/-! ## The two halves -/

/-- `rsc` never separates equivalent nodes. -/
structure RscKeepsClasses (h : Word → Word) (srt : Rsc.StdSort) (g : Graph) : Prop where
  /-- Before and after every round. -/
  rounds : ∀ k s, Rsc.AtRound h srt g k s →
    coarsestBE g ≤ Rsc.partition g s ∧ coarsestBE g ≤ Rsc.partition g (Rsc.round h srt g s)
  /-- The printed count, when the loop ends. -/
  count : ∀ fuel s, Rsc.rsc h srt g fuel = some s → s.new_node_n ≤ beClasses g

/-- `rbsc` with one batch never separates equivalent nodes. -/
structure RbscKeepsClasses (cub : Cub) (extra : ℕ → ℕ → Bool) (max : ℕ) (g : Graph) (dev : Device) :
    Prop where
  /-- Before and after every pass over the one window, which has all edges. -/
  passes : ∃ win, windows max g.node_n g.edges 0 = some win ∧
    slice g.edges win.batch_start win.batch_end = g.edges ∧ ∀ k r,
      AtPass cub (batchSums (device_sums cub) g.node_n g.edges 0 win) g.node_n win.batch_mask
        win.off_batch_node_n dev k r →
      coarsestBE g ≤ partition g.node_n r ∧ ∀ fuel r',
        pass cub (batchSums (device_sums cub) g.node_n g.edges 0 win) g.node_n win.batch_mask fuel r
          = some r' → coarsestBE g ≤ partition g.node_n r'
  /-- The printed count, when the run ends. -/
  count : ∀ fuel s, rbsc cub (device_sums cub) extra max g dev fuel = some s →
    s.new_node_n ≤ beClasses g

theorem rscKeepsClasses (h : Word → Word) (srt : Rsc.StdSort) {g : Graph} (hn : 1 ≤ g.node_n)
    (hle : g.node_n ≤ 2 ^ 31) (hids : IdsBelow g.node_n g.edges) (hgr : Grouped g.edges) :
    RscKeepsClasses h srt g where
  rounds _ _ hs := ⟨Rsc.coarsestBE_le_partition hle hids hgr hs,
    Rsc.coarsestBE_le_round hle hids hgr hs⟩
  count fuel s hs := by
    obtain ⟨k, -, s₀, hs₀, hb, -⟩ := doWhile_eq_some_iff.1 hs
    cases hb
    rw [Rsc.round_count hle hn]
    exact classCount_mono (Rsc.coarsestBE_le_round hle hids hgr hs₀)

theorem rbscKeepsClasses (cub : Cub) (extra : ℕ → ℕ → Bool) {max : ℕ} {g : Graph} (dev : Device)
    (hg : Input g) (hpos : PosWeights g.edges) (hfit : GridFits g.node_n)
    (hmax : g.edges.length ≤ max) : RbscKeepsClasses cub extra max g dev := by
  have hlen : 0 < g.edges.length := List.length_pos_iff.2 hg.nonempty
  obtain ⟨win, hwin, hslice, hspec, hoff⟩ :=
    exists_single_window (n := g.node_n) hg.grouped hg.nonempty hmax
  have hok := hspec.windowOk hg.grouped hg.ids
  have hcoarsest := coarsest_single hg.ids hpos hspec hoff
  rw [hslice] at hok
  have hsums : batchSums (device_sums cub) g.node_n g.edges 0 win = sums_of cub g.edges := by
    rw [batchSums, hslice]
    rfl
  refine ⟨⟨win, hwin, hslice, fun k r hr => ?_⟩, fun fuel s h => ?_⟩
  · rw [hsums] at hr ⊢
    rw [coarsestBE, ← hcoarsest]
    exact ⟨hr.coarsest_le hfit hg.node_pos hok,
      fun _ _ hb => coarsest_le_pass hfit hg.node_pos hok hr hb⟩
  · -- the classes of the only round are those of its refinement
    obtain ⟨fuel, hr⟩ := single_run (batch_count_eq_one hlen hmax).le h
    obtain ⟨-, -, hround, -⟩ :=
      (RunInv.init hg dev).round_spec (Or.inl hfit) (by omega) startsIn_any hr
    obtain ⟨p, href, -, hm⟩ := hround.single hfit hg.node_pos hg.grouped hg.nonempty hmax
    obtain ⟨fuel', d, r, -, hloop, rfl⟩ := href win hwin
    rw [hsums] at hloop
    obtain ⟨k, r₀, hr₀, hb, -⟩ := exists_last_pass hloop
    rw [hm, beClasses, coarsestBE, ← hcoarsest]
    exact classCount_mono (coarsest_le_pass hfit hg.node_pos hok hr₀ hb)

/-- **Equivalent nodes are never separated**, with no assumption on the hash. -/
theorem never_separated (srt : Rsc.StdSort) (cub : Cub) (extra : ℕ → ℕ → Bool) (g : Graph)
    (hn : 1 ≤ g.node_n) (hlt : g.node_n < 2 ^ 31) (hids : IdsBelow g.node_n g.edges)
    (hgr : Grouped g.edges) :
    RscKeepsClasses randomize srt g ∧
      (g.edges ≠ [] → PosWeights g.edges → ∀ max dev, g.edges.length ≤ max →
        RbscKeepsClasses cub extra max g dev) := by
  refine ⟨rscKeepsClasses randomize srt hn hlt.le hids hgr, fun hne hpos max dev hmax => ?_⟩
  have hfit : GridFits g.node_n := by
    unfold GridFits THREAD_N
    omega
  exact rbscKeepsClasses cub extra dev ⟨hn, hne, hids, hgr⟩ hpos hfit hmax

theorem never_separated_pairGraph : RscKeepsClasses randomize Rsc.StdSort.insertion pairGraph ∧
    RbscKeepsClasses Cub.reference rbsc_extra 2 pairGraph zeroDevice := by
  obtain ⟨h₁, h₂⟩ := never_separated Rsc.StdSort.insertion Cub.reference rbsc_extra pairGraph
    (by decide) (by decide) (by decide) (by decide)
  exact ⟨h₁, h₂ (by decide) (by decide) 2 zeroDevice le_rfl⟩

end Rbsc.Compare
