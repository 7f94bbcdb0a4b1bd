import Rbsc.Host.Rename
import Rbsc.Workers.Progress

/-!
# The schedule does not matter

Two runs without collisions, with any numbers of workers and on any schedules, are in step: after
every round the labels, the composed labels and the rewritten edges of the one are those of the
other under a renaming of the labels, so that they have the same rounds and print the same
(`schedule_free`).

* `SameUpTo`: the states of two runs in step;
* `ScheduleFree`: what holds of the two runs.
-/

namespace Rbsc.Workers

open Arrays DoWhile Gpu Host Interleave Labelling

/-- The labels that the nodes of the input have in the one run are those in the other, renamed. -/
structure SameUpTo (g : Graph) (σ : ℕ → ℕ) {N N' : ℕ} (s : State N) (q : ℕ → ℕ) (s' : State N')
    (q' : ℕ → ℕ) : Prop where
  isPerm : IsPerm s.new_node_n σ
  new_node_n : s'.new_node_n = s.new_node_n
  node_n : s'.node_n = s.node_n
  batches : s'.batches = s.batches
  lt : ∀ v < g.node_n, q v < s.new_node_n
  names : ∀ v < g.node_n, q' v = σ (q v)

section Run

variable {N N' : ℕ} {cub cub' : Cub} {extra : ℕ → ℕ → Bool} {max : ℕ} {g : Graph}
  {dev : Fin N → Device} {dev' : Fin N' → Device} {k k' : ℕ} {s s₁ : State N} {s' s₁' : State N'}
  {q q' : ℕ → ℕ} {σ τ : ℕ → ℕ}

/-- A round without collisions. -/
abbrev FreeRound (cub : Cub) (max : ℕ) (s s₁ : State N) : Prop :=
  Round cub (device_sums cub) (roundCollisionFree cub max s) max s s₁

theorem FreeRound.post (hinv : RunInv g k s.host) (hfit : KernelsFit max s.new_node_n s.edges)
    (hmax : 1 ≤ max) (h : FreeRound cub max s s₁) :
    RoundPost cub (device_sums cub) max (roundCollisionFree cub max s) s.host s₁.host :=
  Round.spec (Nat.lt_of_succ_lt hfit.lt) hinv.grouped hinv.nonempty hmax
    (hfit.smallParts hmax hinv.pos) h

theorem Run.inv (hg : Input g) (hfit : KernelsFit max g.node_n g.edges) (hmax : 1 ≤ max)
    (h : Run cub extra max g dev k s q) (ha : k = 0 ∨ again extra s = true) :
    RunInv g k s.host ∧ KernelsFit max s.new_node_n s.edges := by
  induction h with
  | start => exact ⟨⟨hg.node_pos, le_rfl, hg.nonempty, hg.ids, hg.grouped⟩, hfit⟩
  | next _ ha' hr ih =>
    have ha := ha.resolve_left (Nat.succ_ne_zero _)
    obtain ⟨hinv, hfits⟩ := ih ha'
    have hpost := FreeRound.post hinv hfits hmax hr
    exact ⟨hinv.next hpost ha, hpost.fits hfits ha⟩

/-- The names at the start. -/
theorem SameUpTo.init (g : Graph) (dev : Fin N → Device) (dev' : Fin N' → Device) :
    SameUpTo g id (init g dev) id (init g dev') id :=
  ⟨IsPerm.refl _, rfl, rfl, rfl, fun _ hv => hv, fun _ _ => rfl⟩

/-- The names that the nodes have at the start of a round have the edges between them. -/
def SameEdges (σ : ℕ → ℕ) (s : State N) (s' : State N') : Prop :=
  s'.edges = s.edges.map (Edge.rename σ)

/-- **One more round of both.** -/
theorem SameUpTo.round (h : SameUpTo g τ s q s' q') (he : SameEdges τ s s')
    (hinv : RunInv g k s.host) (hinv' : RunInv g k s'.host)
    (hfit : KernelsFit max s.new_node_n s.edges) (hfit' : KernelsFit max s'.new_node_n s'.edges)
    (hmax : 1 ≤ max) (hr : FreeRound cub max s s₁) (hr' : FreeRound cub' max s' s₁') :
    ∃ σ, SameUpTo g σ s₁ (fun v => s₁.w (q v)) s₁' (fun v => s₁'.w (q' v)) ∧
      (∀ v < s.new_node_n, s₁'.w (τ v) = σ (s₁.w v)) ∧
      (1 < s₁.batches → SameEdges σ s₁ s₁') := by
  have hids : IdsBelow s.new_node_n s.edges := hinv.ids
  obtain ⟨hn, hb, hlab, hedges⟩ := FreeRound.post hinv hfit hmax hr
  obtain ⟨hn', hb', hlab', hedges'⟩ := FreeRound.post hinv' hfit' hmax hr'
  change RoundSpec cub _ max s.new_node_n s.edges (batchCollisionFree cub max s.new_node_n s.edges)
    s₁.w s₁.new_node_n at hlab
  change RoundSpec cub' _ max s'.new_node_n s'.edges
    (batchCollisionFree cub' max s'.new_node_n s'.edges) s₁'.w s₁'.new_node_n at hlab'
  have hlen : s'.edges.length = s.edges.length := by rw [he, List.length_map]
  change s₁.batches = batch_count s.edges.length max at hb
  change s₁'.batches = batch_count s'.edges.length max at hb'
  change s₁.edges = _ at hedges
  change s₁'.edges = _ at hedges'
  rw [h.new_node_n, he] at hlab'
  obtain ⟨hm, σ, hσ, hw⟩ := hlab.exists_renaming h.isPerm hfit hinv.pos hinv.grouped hids hmax hlab'
  have hbb : s₁'.batches = s₁.batches := by rw [hb, hb', hlen]
  refine ⟨σ, ⟨hσ, hm, ?_, hbb, fun v hv => hlab.lt _ (h.lt v hv), fun v hv => ?_⟩, hw, ?_⟩
  · change s₁'.node_n = s'.new_node_n at hn'
    change s₁.node_n = s.new_node_n at hn
    rw [hn, hn', h.new_node_n]
  · rw [h.names v hv, hw _ (h.lt v hv)]
  · intro hb₁
    have hb₂ : 1 < batch_count s.edges.length max := hb ▸ hb₁
    change s₁.edges = if 1 < batch_count s.edges.length max then _ else _ at hedges
    change s₁'.edges = if 1 < batch_count s'.edges.length max then _ else _ at hedges'
    rw [if_pos hb₂] at hedges
    rw [hlen, if_pos hb₂] at hedges'
    change s₁'.edges = s₁.edges.map (Edge.rename σ)
    rw [hedges, hedges']
    change quotientEdges s₁'.w s'.edges = (quotientEdges s₁.w s.edges).map (Edge.rename σ)
    rw [he]
    exact quotientEdges_rename hids hlab.lt h.isPerm.inj hσ.inj hw

/-- **Two runs are in step.** -/
theorem Run.sameUpTo (hg : Input g) (hfit : KernelsFit max g.node_n g.edges) (hmax : 1 ≤ max)
    (h : Run cub extra max g dev k s q) :
    ∀ {s' : State N'} {q' : ℕ → ℕ}, Run cub' extra max g dev' k s' q' →
      ∃ σ, SameUpTo g σ s q s' q' ∧ (k = 0 ∨ 1 < s.batches → SameEdges σ s s') := by
  induction h with
  | start =>
    intro s' q' h'
    cases h'
    exact ⟨id, SameUpTo.init g dev dev', fun _ => (List.map_id _).symm⟩
  | @next k s s₁ q h ha hr ih =>
    intro s₁' q₁' h'
    cases h' with
    | @next _ s' _ q' h' ha' hr' =>
      obtain ⟨τ, hτ, he⟩ := ih h'
      have hbat : k = 0 ∨ 1 < s.batches :=
        ha.imp id fun ha => (again_iff.1 (again_host extra s ▸ ha)).1
      obtain ⟨hinv, hfits⟩ := h.inv hg hfit hmax ha
      obtain ⟨hinv', hfits'⟩ := h'.inv hg hfit hmax ha'
      obtain ⟨σ, hσ, -, he'⟩ := hτ.round (he hbat) hinv hinv' hfits hfits' hmax hr hr'
      exact ⟨σ, hσ, fun hb => he' (hb.resolve_left (Nat.succ_ne_zero _))⟩

/-- The loop conditions are the same. -/
theorem SameUpTo.again (h : SameUpTo g σ s q s' q') (he : 1 < s.batches → SameEdges σ s s') :
    again extra s' = again extra s := by
  by_cases hb : 1 < s.batches
  · have hlen : s'.edges.length = s.edges.length := by rw [he hb, List.length_map]
    rw [Workers.again, Workers.again, h.batches, hlen, h.node_n, h.new_node_n]
  · have hfalse : ∀ x : Bool, (decide (s.batches > 1) && x) = false := fun x => by simp [hb]
    rw [Workers.again, Workers.again, h.batches, Bool.and_assoc, Bool.and_assoc, hfalse, hfalse]

/-- The rounds before. -/
theorem Run.before (h : Run cub extra max g dev k s q) {j : ℕ} (hj : j < k) :
    ∃ s₀ q₀, Run cub extra max g dev j s₀ q₀ ∧ (j = 0 ∨ again extra s₀ = true) := by
  induction h with
  | start => exact absurd hj (Nat.not_lt_zero j)
  | @next k s s' q h ha _ ih =>
    rcases Nat.lt_succ_iff_lt_or_eq.1 hj with hj | rfl
    · exact ih hj
    · exact ⟨s, q, h, ha⟩

/-- The run ends after `k` rounds. -/
structure Ended (cub : Cub) (extra : ℕ → ℕ → Bool) (max : ℕ) (g : Graph) (dev : Fin N → Device)
    (k : ℕ) (s : State N) : Prop where
  pos : 1 ≤ k
  run : ∃ q, Run cub extra max g dev k s q
  stop : again extra s = false

/-- No other run has more rounds. -/
theorem Ended.le (hg : Input g) (hfit : KernelsFit max g.node_n g.edges) (hmax : 1 ≤ max)
    (h : Ended cub extra max g dev k s) (h' : Run cub' extra max g dev' k' s' q') : k' ≤ k := by
  by_contra hlt
  obtain ⟨s₀, q₀, h₀, ha⟩ := h'.before (not_le.1 hlt)
  obtain ⟨hpos, ⟨q, hrun⟩, hstop⟩ := h
  obtain ⟨σ, hσ, he⟩ := hrun.sameUpTo hg hfit hmax h₀
  rcases ha with h0 | ha
  · omega
  · rw [hσ.again fun hb => he (Or.inr hb), hstop] at ha
    cases ha

/-- **A run gets as far as one that has ended**: before that it goes on, and its next round can be
finished; then it has ended, too. -/
theorem Ended.goes_on (hg : Input g) (hfit : KernelsFit max g.node_n g.edges) (hmax : 1 ≤ max)
    (hgpus : 0 < N') (h : Ended cub extra max g dev k s) (h' : Run cub' extra max g dev' k' s' q') :
    Ended cub' extra max g dev' k' s' ∨ k' < k ∧ (k' = 0 ∨ Workers.again extra s' = true) ∧
      ∃ s₁', Round cub' (device_sums cub') anyDevice max s' s₁' := by
  obtain ⟨q, hrun⟩ := h.run
  obtain hlt | rfl := (h.le hg hfit hmax h').lt_or_eq
  · obtain ⟨s₀, q₀, h₀, ha⟩ := hrun.before hlt
    obtain ⟨σ, hσ, he⟩ := h₀.sameUpTo hg hfit hmax h'
    have ha' : k' = 0 ∨ Workers.again extra s' = true := ha.imp id fun ha => by
      rw [hσ.again fun hb => he (Or.inr hb), ha]
    obtain ⟨hinv, hfits⟩ := h'.inv hg hfit hmax ha'
    exact .inr ⟨hlt, ha', round_exists cub' (device_sums cub') max s' hfits hmax hinv.pos hgpus⟩
  · obtain ⟨σ, hσ, he⟩ := hrun.sameUpTo hg hfit hmax h'
    refine .inl ⟨h.pos, ⟨q', h'⟩, ?_⟩
    rw [hσ.again fun hb => he (Or.inr hb), h.stop]

end Run

/-- Two runs without collisions are the same but for the numbers of the labels. -/
structure ScheduleFree {N N' : ℕ} (cub cub' : Cub) (extra : ℕ → ℕ → Bool) (max : ℕ) (g : Graph)
    (dev : Fin N → Device) (dev' : Fin N' → Device) : Prop where
  /-- After `k` rounds the labels are the same up to a renaming `τ`, and so are the edges, entry by
  entry.  After one more round of both, the label of every node and that of its name in the other
  run are the same up to a renaming `σ`, and so are the rewritten edges. -/
  rounds : ∀ k s q s' q', Run cub extra max g dev k s q → Run cub' extra max g dev' k s' q' →
    ∃ τ, SameUpTo g τ s q s' q' ∧ (k = 0 ∨ 1 < s.batches → SameEdges τ s s') ∧
      ∀ s₁ s₁', (k = 0 ∨ again extra s = true) → FreeRound cub max s s₁ →
        FreeRound cub' max s' s₁' →
        ∃ σ, SameUpTo g σ s₁ (fun v => s₁.w (q v)) s₁' (fun v => s₁'.w (q' v)) ∧
          (∀ v < s.new_node_n, s₁'.w (τ v) = σ (s₁.w v)) ∧ (1 < s₁.batches → SameEdges σ s₁ s₁')
  /-- No run has more rounds than one that has ended. -/
  rounds_le : ∀ k s k' s' q', Ended cub extra max g dev k s →
    Run cub' extra max g dev' k' s' q' → k' ≤ k
  /-- The runs end after the same number of rounds, with the same flag and the same count. -/
  ends : ∀ k s k' s', Ended cub extra max g dev k s → Ended cub' extra max g dev' k' s' →
    k' = k ∧ done s' = done s ∧ s'.new_node_n = s.new_node_n
  /-- Where one run has ended the other gets: with fewer rounds it goes on, and its next round can be
  finished, and with as many it has ended, too. -/
  goes_on : 0 < N' → ∀ k s k' s' q', Ended cub extra max g dev k s →
    Run cub' extra max g dev' k' s' q' → Ended cub' extra max g dev' k' s' ∨
      k' < k ∧ (k' = 0 ∨ again extra s' = true) ∧
        ∃ s₁', Round cub' (device_sums cub') anyDevice max s' s₁'

/-- **The schedule does not matter**, when the grid of the node kernels fits, or no batch is refined
in the first round. -/
theorem schedule_free {N N' : ℕ} (cub cub' : Cub) (extra : ℕ → ℕ → Bool) (max : ℕ) (g : Graph)
    (dev : Fin N → Device) (dev' : Fin N' → Device) (hg : WeightedInput g) (hmax : 1 ≤ max)
    (hfit : KernelsFit max g.node_n g.edges) : ScheduleFree cub cub' extra max g dev dev' where
  rounds k s q s' q' h h' := by
    obtain ⟨τ, hτ, he⟩ := h.sameUpTo hg.toInput hfit hmax h'
    refine ⟨τ, hτ, he, fun s₁ s₁' ha hr hr' => ?_⟩
    have hbat : k = 0 ∨ 1 < s.batches :=
      ha.imp id fun ha => (again_iff.1 (again_host extra s ▸ ha)).1
    have ha' : k = 0 ∨ again extra s' = true := ha.imp id fun ha => by
      rw [hτ.again fun hb => he (Or.inr hb), ha]
    obtain ⟨hinv, hfits⟩ := h.inv hg.toInput hfit hmax ha
    obtain ⟨hinv', hfits'⟩ := h'.inv hg.toInput hfit hmax ha'
    exact hτ.round (he hbat) hinv hinv' hfits hfits' hmax hr hr'
  rounds_le k s k' s' q' h h' := h.le hg.toInput hfit hmax h'
  ends k s k' s' h h' := by
    obtain ⟨q, hrun⟩ := h.run
    obtain ⟨q', hrun'⟩ := h'.run
    have hk : k' = k :=
      le_antisymm (h.le hg.toInput hfit hmax hrun') (h'.le hg.toInput hfit hmax hrun)
    subst hk
    obtain ⟨σ, hσ, -⟩ := hrun.sameUpTo hg.toInput hfit hmax hrun'
    exact ⟨rfl, by rw [done, done, hσ.batches], hσ.new_node_n⟩
  goes_on hgpus k s k' s' q' h h' := h.goes_on hg.toInput hfit hmax hgpus h'

theorem schedule_free_pairGraph : ScheduleFree Cub.reference Cub.reference rbsc_extra 1 pairGraph
    (fun _ : Fin 1 => zeroDevice) (fun _ : Fin 2 => zeroDevice) :=
  schedule_free Cub.reference Cub.reference rbsc_extra 1 pairGraph _ _ pairGraph_input le_rfl
    (by decide)

end Rbsc.Workers
