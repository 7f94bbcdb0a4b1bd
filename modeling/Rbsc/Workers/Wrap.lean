import Rbsc.Host.Wrap
import Rbsc.Workers.Progress
import Rbsc.Workers.Schedule

/-!
# Schedules whose grid has wrapped

When the grid of the node kernels has wrapped to zero blocks, a batch keeps the labels of the device
it is refined on, so that the labels of a round depend on which worker takes which batch
(`wrapped_not_schedule_free`).
-/

namespace Rbsc.Workers

open Arrays DoWhile Gpu Host Interleave Labelling Lumping

section Held

variable {cub : Cub} {sums : SumsOf} {max n : ℕ} {edges : List Edge} {f : ℕ → Word} {d : Device}
  {b b' : Batches} {k fuel : ℕ}

/-- With zero blocks a batch returns. -/
theorem run_batch_held_returns (cub : Cub) (sums : SumsOf) (max k fuel : ℕ) (edges : List Edge)
    (hn : n + 1 < 2 ^ 32) (h0 : 0 < n) (hw : ¬ GridFits n) (hb : Held n f b.dev) :
    ∃ b', run_batch cub sums max n edges (fuel + 2) b k = some b' := by
  unfold run_batch
  cases select_window max n edges k with
  | none => exact ⟨b, rfl⟩
  | some win =>
    obtain ⟨r, hr⟩ := refine_loop_held cub (batchSums sums n edges k win) win.batch_mask
      win.off_batch_node_n fuel hn h0 hw hb
    dsimp only
    rw [hr]
    exact ⟨_, rfl⟩

/-- The device of batch `k` holds the labels `f k`. -/
abbrev heldDevice (n : ℕ) (f : ℕ → ℕ → Word) : ℕ → Device → Prop := fun k d => Held n (f k) d

/-- The local labels are those that the device held. -/
theorem refined_held {F : ℕ → ℕ → Word} {Q : ℕ → Device → Prop} (hn : n + 1 < 2 ^ 32) (h0 : 0 < n)
    (hw : ¬ GridFits n) (hQ : ∀ k d, Q k d → heldDevice n F k d) {p : Arr Word}
    (h : Refined cub sums max n edges Q k p) {win : Window} (hwin : windows max n edges k = some win)
    {v : ℕ} (hv : v < n) : p v = F k v := by
  obtain ⟨fuel, d, r, hd, hr, rfl⟩ := h win hwin
  exact ((hQ k d hd).refine hn h0 hw hr).d_w v hv

end Held

/-- Each of two workers takes one of two batches. -/
theorem round_of_two {cub : Cub} {sums : SumsOf} {max fuel : ℕ} {s : State 2}
    {Q : ℕ → Device → Prop} (hcount : batch_count s.edges.length max = 2) (hQ₀ : Q 0 (s.dev 0))
    (hQ₁ : Q 1 (s.dev 1))
    (hret₀ : ∀ w c, ∃ b, run_batch cub sums max s.new_node_n s.edges fuel ⟨w, c, s.dev 0⟩ 0 = some b)
    (hret₁ : ∀ w c, ∃ b, run_batch cub sums max s.new_node_n s.edges fuel ⟨w, c, s.dev 1⟩ 1 = some b) :
    ∃ s', Round cub sums Q max s s' := by
  set w₀ := fill s.new_node_n (fun _ => s.new_node_n) s.w with hw₀
  obtain ⟨b₁, hb₁⟩ := hret₀ w₀ 0
  obtain ⟨b₂, hb₂⟩ := hret₁ b₁.w b₁.new_node_n
  let cfg : Config (Fin 2) Pool Thread :=
    ⟨⟨w₀, 0, Finset.range 2⟩, fun p => ⟨s.dev p, none⟩⟩
  have hinit : region_init max s = cfg := by
    unfold region_init
    rw [hcount]
  have hmoves₁ := Solo.moves cfg 0
    (solo_run_batch (c := env max s) (show 0 ∈ Finset.range 2 by decide) hQ₀ hb₁)
  let cfg₁ : Config (Fin 2) Pool Thread :=
    ⟨⟨b₁.w, b₁.new_node_n, (Finset.range 2).erase 0⟩, Function.update cfg.own 0 ⟨b₁.dev, none⟩⟩
  have hmoves₂ := Solo.moves cfg₁ 1
    (solo_run_batch (c := env max s) (show 1 ∈ (Finset.range 2).erase 0 by decide) hQ₁ hb₂)
  refine ⟨_, _, hinit ▸ hmoves₁.trans hmoves₂, ⟨?_, fun p => ?_⟩, rfl⟩
  · change ((Finset.range 2).erase 0).erase 1 = ∅
    decide
  · fin_cases p <;> rfl

/-! ## Two runs -/

/-- Four nodes with an edge to node `1`, among `2 ^ 32 - 2` nodes. -/
def wideGraph₄ : Graph := ⟨2 ^ 32 - 2, [⟨0, 1, 1⟩, ⟨1, 1, 1⟩, ⟨2, 1, 1⟩, ⟨3, 1, 1⟩]⟩

theorem wideGraph₄_input : WeightedInput wideGraph₄ where
  node_pos := by decide
  nonempty := by decide
  ids := by decide
  grouped := by decide
  pos := by decide
  total := by decide

theorem wideGraph₄_pos : 0 < wideGraph₄.node_n := by decide

theorem wideGraph₄_lt : wideGraph₄.node_n + 1 < 2 ^ 32 := by decide

theorem wideGraph₄_wrapped : ¬ GridFits wideGraph₄.node_n := by decide

/-- All sources have the same weights, so that nothing collides. -/
theorem wideGraph₄_collisionFree (cub : Cub) (k : ℕ)
    (hk : k < batch_count wideGraph₄.edges.length 2) (d : Device) :
    batchCollisionFree cub 2 wideGraph₄.node_n wideGraph₄.edges k d := by
  intro win hwin j r _ u v hu hv _ x
  have hspec := windowSpec_of_some wideGraph₄_input.grouped (by decide) hk hwin
  have hrow : ∀ u : Fin wideGraph₄.node_n, win.batch_mask u = .IN_BATCH → ∀ y,
      weights (slice wideGraph₄.edges win.batch_start win.batch_end) wideGraph₄.node_n u y =
        if (y : ℕ) = 1 then 1 else 0 := fun u hu y => by
    rw [weights_slice wideGraph₄_input.grouped (by decide) hk hwin (by rw [hu]; decide)]
    obtain ⟨e, he, hes⟩ := isSource_iff_sourceIn.2 <|
      ((hspec.in_iff u u.2).1 hu).imp fun i hi => ⟨hi.1.trans_le hspec.end_le, Nat.zero_le _, hi.2.2⟩
    have hu4 : (u : ℕ) = 0 ∨ (u : ℕ) = 1 ∨ (u : ℕ) = 2 ∨ (u : ℕ) = 3 := by
      simp only [wideGraph₄, List.mem_cons, List.not_mem_nil, or_false] at he
      rcases he with rfl | rfl | rfl | rfl <;> simp [← hes]
    rcases hu4 with h | h | h | h <;>
      simp [weights, wideGraph₄, edgeWeight_cons, h, eq_comm]
  unfold classWeight
  exact Finset.sum_congr rfl fun y _ => (hrow u hu y).trans (hrow v hv y).symm

/-- In batches of two edges, nodes `2` and `3` are in the second one. -/
theorem wideGraph₄_inBatch {v : ℕ} (hv : v = 2 ∨ v = 3) :
    ∃ win, windows 2 wideGraph₄.node_n wideGraph₄.edges 1 = some win ∧
      win.batch_mask v ≠ .OFF_BATCH := by
  have hraw : rawStart 2 1 < wideGraph₄.edges.length := by decide
  have hvn : v < wideGraph₄.node_n := by rcases hv with rfl | rfl <;> decide
  have hc2 : Cut wideGraph₄.edges 2 := Or.inr (Or.inr (by decide))
  have hc4 : Cut wideGraph₄.edges 4 := Or.inr (Or.inl rfl)
  cases hwin : windows 2 wideGraph₄.node_n wideGraph₄.edges 1 with
  | none =>
    exact absurd hc4 (select_window_none hraw (by decide) hwin (a := 2) (b := 4) (by decide)
      (by decide) (by decide) hc2)
  | some win =>
    obtain ⟨-, -, hend, -, -, hmin, hlast, -⟩ := select_window_some hraw (by decide) hwin
    have hspec := windowSpec_of_some wideGraph₄_input.grouped (by decide) (by decide) hwin
    have hraw4 : rawEnd 2 wideGraph₄.edges 1 = 4 := by decide
    rw [hraw4] at hend hlast
    have hstart : win.batch_start ≤ 2 := by
      by_contra hne
      exact hmin 2 (by decide) (by omega) hc2
    have hend : win.batch_end = 4 := by
      by_contra hne
      exact hlast 4 (by omega) le_rfl hc4
    refine ⟨win, rfl, ?_⟩
    rw [(hspec.in_iff v hvn).2]
    · decide
    · rw [hend]
      rcases hv with rfl | rfl
      · exact ⟨2, by decide, hstart, by decide⟩
      · exact ⟨3, by decide, hstart.trans (by decide), by decide⟩

/-- After the first round, two nodes of the second batch have one label when the device of the batch
held one. -/
theorem wideGraph₄_labels {N : ℕ} {cub : Cub} {dev : Fin N → Device} {F : ℕ → ℕ → Word}
    {Q : ℕ → Device → Prop} (hQ : ∀ k d, Q k d → heldDevice wideGraph₄.node_n F k d)
    (hF : ∀ k v, (F k v).toNat < wideGraph₄.node_n) {s : State N}
    (h : Round cub (device_sums cub) Q 2 (init wideGraph₄ dev) s) : s.w 2 = s.w 3 ↔ F 1 2 = F 1 3 := by
  have hlt := wideGraph₄_lt
  have h2 : 2 < wideGraph₄.node_n := by decide
  have h3 : 3 < wideGraph₄.node_n := by decide
  have hlocal : ∀ (p : Arr Word) (k v : ℕ), p v = F k v → localLabel p v = (F k v).toNat :=
    fun p k v hp => by
      have := hF k v
      rw [localLabel, hp, nodeT_of_lt (by omega)]
  have hsmall : SmallParts cub (device_sums cub) 2 (init wideGraph₄ dev).new_node_n
      (init wideGraph₄ dev).edges Q := fun k win hwin fuel d r hd hr v hv => by
    have hp := ((hQ k d hd).refine hlt wideGraph₄_pos wideGraph₄_wrapped hr).d_w v hv
    rw [hlocal _ k v hp]
    exact hF k v
  obtain ⟨-, -, ⟨part, href, hlab⟩, -⟩ := Round.spec (s := init wideGraph₄ dev)
    ((Nat.lt_succ_self _).trans hlt) wideGraph₄_input.grouped wideGraph₄_input.nonempty (by decide)
    hsmall h
  have hd := disjoint_windows (n := wideGraph₄.node_n) wideGraph₄_input.grouped
    (show 1 ≤ 2 by decide)
  have hkey : ∀ v, v = 2 ∨ v = 3 → nodeKey (windows 2 wideGraph₄.node_n wideGraph₄.edges) part
      (batch_count wideGraph₄.edges.length 2) v = .inl (1, (F 1 v).toNat) := fun v hv => by
    have hvn : v < wideGraph₄.node_n := by rcases hv with rfl | rfl <;> assumption
    obtain ⟨win, hwin, hm⟩ := wideGraph₄_inBatch hv
    have href := href 1 (show 1 < batch_count wideGraph₄.edges.length 2 by decide)
    rw [nodeKey_of_inBatch hd hvn (by decide) ⟨win, hwin, hm⟩,
      hlocal _ 1 v (refined_held hlt wideGraph₄_pos wideGraph₄_wrapped hQ href hwin hvn)]
  rw [← BitVec.toNat_inj]
  apply (hlab.eq_iff 2 h2 3 h3).trans
  apply (Eq.congr (hkey 2 (Or.inl rfl)) (hkey 3 (Or.inr rfl))).trans
  simp

/-- The labels of a device that tells nodes `2` and `3` apart. -/
def splitLabel (v : ℕ) : Word := if v ≤ 2 then 0 else 1

/-- `leftDevice` with these labels. -/
def splitDevice : Device := { leftDevice with d_w := ⟨splitLabel⟩ }

theorem held_splitDevice {n : ℕ} (h0 : 0 < n) : Held n splitLabel splitDevice where
  d_w _ _ := rfl
  truths := (blank_leftDevice h0).truths
  mono u v huv _ := by
    unfold splitLabel
    split_ifs
    · exact le_rfl
    · exact Nat.zero_le _
    · omega
    · exact le_rfl
  small v _ := by
    unfold splitLabel
    split_ifs <;> decide

/-- The devices of two workers. -/
def twoDevices (p : Fin 2) : Device := if (p : ℕ) = 0 then leftDevice else splitDevice

/-- The labels that the batches find, when each of two workers takes one. -/
def foundLabel (k v : ℕ) : Word := if k = 0 then 0 else splitLabel v

/-- One worker refines both batches on one device. -/
theorem run_one_worker : ∃ s q, Run Cub.reference rbsc_extra 2 wideGraph₄
    (fun _ : Fin 1 => leftDevice) 1 s q ∧ s.w 2 = s.w 3 := by
  have hlt := wideGraph₄_lt
  have h0 := wideGraph₄_pos
  have hw := wideGraph₄_wrapped
  set s₀ : State 1 := init wideGraph₄ fun _ => leftDevice with hs₀
  obtain ⟨s', hs'⟩ := round_blank_returns (s := Host.init wideGraph₄ leftDevice) Cub.reference
    (device_sums Cub.reference) 2 0 hlt h0 hw (blank_leftDevice h0)
  have hstarts : ∀ fuel, ∀ k < batch_count wideGraph₄.edges.length 2, ∀ b,
      run_batches Cub.reference (device_sums Cub.reference) 2 wideGraph₄.node_n wideGraph₄.edges fuel
        k (batches_init (Host.init wideGraph₄ leftDevice)) = some b →
      heldDevice wideGraph₄.node_n (fun _ _ => 0) k b.dev ∧
        roundCollisionFree Cub.reference 2 s₀ k b.dev := fun fuel k hk b hb =>
    ⟨run_batches_blank hlt h0 hw (b := batches_init (Host.init wideGraph₄ leftDevice))
      (blank_leftDevice h0) k b hb, wideGraph₄_collisionFree _ k hk _⟩
  obtain ⟨s₁, hround, -⟩ := round_of_host (Q := fun k d =>
    heldDevice wideGraph₄.node_n (fun _ _ => 0) k d ∧ roundCollisionFree Cub.reference 2 s₀ k d)
    (s := s₀) 0 hstarts hs'
  have hlabels := wideGraph₄_labels (F := fun _ _ => 0) (fun k d hd => hd.1)
    (fun _ _ => by decide) hround
  exact ⟨s₁, _, .next .start (Or.inl rfl) (hround.mono fun _ _ hd => hd.2), hlabels.2 rfl⟩

/-- Each of two workers refines a batch on its own device. -/
theorem run_two_workers : ∃ s q, Run Cub.reference rbsc_extra 2 wideGraph₄ twoDevices 1 s q ∧
    s.w 2 ≠ s.w 3 := by
  have hlt := wideGraph₄_lt
  have h0 := wideGraph₄_pos
  have hw := wideGraph₄_wrapped
  obtain ⟨s', hround⟩ := round_of_two (s := init wideGraph₄ twoDevices)
    (Q := fun k d => heldDevice wideGraph₄.node_n foundLabel k d ∧
      roundCollisionFree Cub.reference 2 (init wideGraph₄ twoDevices) k d)
    (show batch_count wideGraph₄.edges.length 2 = 2 by decide)
    ⟨blank_leftDevice h0, wideGraph₄_collisionFree _ 0 (by decide) _⟩
    ⟨held_splitDevice h0, wideGraph₄_collisionFree _ 1 (by decide) _⟩
    (fun w c => run_batch_held_returns Cub.reference (device_sums Cub.reference) 2 0 0
      wideGraph₄.edges hlt h0 hw (blank_leftDevice h0))
    (fun w c => run_batch_held_returns Cub.reference (device_sums Cub.reference) 2 1 0
      wideGraph₄.edges hlt h0 hw (held_splitDevice h0))
  have hsmall : ∀ k v, (foundLabel k v).toNat < wideGraph₄.node_n := fun k v => by
    unfold foundLabel splitLabel
    split_ifs <;> decide
  have hlabels := wideGraph₄_labels (fun k d hd => hd.1) hsmall hround
  exact ⟨s', _, .next .start (Or.inl rfl) (hround.mono fun _ _ hd => hd.2), fun h =>
    absurd (hlabels.1 h) (by decide)⟩

/-- **The schedule matters when the grid has wrapped**: with one worker nodes `2` and `3` get one
label in the first round, and with two workers they get two. -/
theorem wrapped_not_schedule_free : WeightedInput wideGraph₄ ∧ wideGraph₄.node_n + 1 < 2 ^ 32 ∧
    twoDevices 0 = leftDevice ∧
    ∃ s q s' q', Run Cub.reference rbsc_extra 2 wideGraph₄ (fun _ : Fin 1 => leftDevice) 1 s q ∧
      Run Cub.reference rbsc_extra 2 wideGraph₄ twoDevices 1 s' q' ∧
      ¬ ∃ σ, IsPerm s.new_node_n σ ∧ ∀ v < wideGraph₄.node_n, s'.w v = σ (s.w v) := by
  obtain ⟨s, q, hrun, heq⟩ := run_one_worker
  obtain ⟨s', q', hrun', hne⟩ := run_two_workers
  refine ⟨wideGraph₄_input, wideGraph₄_lt, rfl, s, q, s', q', hrun, hrun', ?_⟩
  rintro ⟨σ, -, hσ⟩
  have h2 := hσ 2 (by decide)
  have h3 := hσ 3 (by decide)
  rw [heq, ← h3] at h2
  exact hne h2

end Rbsc.Workers
