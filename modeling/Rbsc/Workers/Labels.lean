import Rbsc.Host.Wrap
import Rbsc.Workers.Progress

/-!
# The labels that a round hands out

Whatever the order of the workers' statements, the labels of a round are dense, two nodes share one
exactly when they are in one batch with one local label, and neither the critical section nor the
fill-in ever hands out the sentinel (`handout_ok`).

* `Handout`: what holds while and after the labels are handed out;
* with a grid that has wrapped, a local label can be past the end of `label_map`
  (`wideGraph_not_handout`).
-/

namespace Rbsc.Workers

open Arrays DoWhile Gpu Host Interleave Labelling

/-- The labels of a round from `s`, on any schedule. -/
structure Handout {max_gpus : ℕ} (cub : Cub) (sums : SumsOf) (max : ℕ) (s : State max_gpus) :
    Prop where
  /-- A local label is in the range of `label_map`. -/
  index_lt : ∀ cfg, Moves (Exec cub sums anyDevice (env max s)) (region_init max s) cfg →
    ∀ p t, (cfg.own p).task = some t → t.i < s.new_node_n →
      t.current_batch_mask t.i ≠ .OFF_BATCH →
        localLabel t.current_batch_partition t.i < s.new_node_n
  /-- The critical section does not hand out the sentinel. -/
  new_lt : ∀ cfg, Moves (Exec cub sums anyDevice (env max s)) (region_init max s) cfg →
    ∀ p t, (cfg.own p).task = some t → t.line = .label → t.i < s.new_node_n →
      t.current_batch_mask t.i ≠ .OFF_BATCH →
        t.current_label_map (localLabel t.current_batch_partition t.i) = s.new_node_n →
          cfg.shared.new_node_n < s.new_node_n
  /-- The sentinel is not written to `w`. -/
  write_lt : ∀ cfg, Moves (Exec cub sums anyDevice (env max s)) (region_init max s) cfg →
    ∀ p t, (cfg.own p).task = some t → t.line = .write →
      t.current_label_map (localLabel t.current_batch_partition t.i) < s.new_node_n
  /-- The fill-in does not hand out the sentinel. -/
  fill_lt : ∀ cfg, Moves (Exec cub sums anyDevice (env max s)) (region_init max s) cfg →
    Finished cfg → ∀ j < s.new_node_n, ∀ names : Names,
      names = (List.range j).foldl (fill_in_step s.new_node_n) ⟨cfg.shared.w, cfg.shared.new_node_n⟩ →
        names.w j = s.new_node_n → names.new_node_n < s.new_node_n
  /-- The labels are the numbers below their count. -/
  dense : ∀ s', Round cub sums anyDevice max s s' → s'.new_node_n ≤ s.new_node_n ∧
    (∀ v < s.new_node_n, s'.w v < s'.new_node_n) ∧
      ∀ l < s'.new_node_n, ∃ v < s.new_node_n, s'.w v = l
  /-- Nodes share a label when they are in one batch with one local label. -/
  eq_iff : ∀ s', Round cub sums anyDevice max s s' → ∃ part : ℕ → Arr Word,
    (∀ k < batch_count s.edges.length max,
      Refined cub sums max s.new_node_n s.edges anyDevice k (part k)) ∧
    ∀ u < s.new_node_n, ∀ v < s.new_node_n, u ≠ v → (s'.w u = s'.w v ↔
      ∃ k < batch_count s.edges.length max,
        InBatch (windows max s.new_node_n s.edges) k u ∧
        InBatch (windows max s.new_node_n s.edges) k v ∧
        localLabel (part k) u = localLabel (part k) v)
  /-- The new ids are in the range of `considered_nodes` and `weight_indexes`. -/
  ids_lt : ∀ s', Round cub sums anyDevice max s s' → ∀ e ∈ s.edges,
    s'.w e.edge_start < s.new_node_n ∧ s'.w e.edge_end < s.new_node_n

section Region

variable {max_gpus : ℕ} {cub : Cub} {sums : SumsOf} {Q : ℕ → Device → Prop} {max : ℕ}
  {s : State max_gpus} {cfg : Config (Fin max_gpus) Pool Thread}

/-- The invariant holds on every schedule. -/
theorem Moves.regionInv (hlt : s.new_node_n < 2 ^ 32) (hgr : Grouped s.edges) (hmax : 1 ≤ max)
    (hsmall : SmallParts cub sums max s.new_node_n s.edges Q)
    (h : Moves (Exec cub sums Q (env max s)) (region_init max s) cfg) :
    ∃ G, RegionInv cub sums Q (env max s) G cfg :=
  h.inv (I := fun cfg => ∃ G, RegionInv cub sums Q (env max s) G cfg)
    ⟨_, RegionInv.init cub sums Q max s⟩
    fun _ _ _ _ ⟨_, hG⟩ hm => hG.step (disjoint_windows hgr hmax) hlt hsmall hm

variable {c : Env} {G : Ghost} {p : Fin max_gpus} {t : Task}

/-- The local labels of a batch are below the number of nodes. -/
theorem RegionInv.local_lt (h : RegionInv cub sums Q c G cfg)
    (hsmall : SmallParts cub sums c.max_batch_edge_n c.node_n c.edges Q)
    (ht : (cfg.own p).task = some t) {v : ℕ} (hv : v < c.node_n) :
    localLabel t.current_batch_partition v < c.node_n := by
  obtain ⟨hb, htask⟩ := h.task p t ht
  obtain ⟨win, hwin, -⟩ := htask.window
  obtain ⟨fuel, d, r, hQ, hr, hpart⟩ := h.refined t.batch htask.lt hb win hwin
  rw [htask.partition, hpart]
  exact hsmall t.batch win hwin fuel d r hQ hr v hv

/-- A node that waits for a new label makes room for it. -/
theorem RegionInv.new_lt (h : RegionInv cub sums Q c G cfg) (ht : (cfg.own p).task = some t)
    (hl : t.line = .label) (hi : t.i < c.node_n) (hoff : t.current_batch_mask t.i ≠ .OFF_BATCH) :
    cfg.shared.new_node_n < c.node_n := by
  obtain ⟨-, htask⟩ := h.task p t ht
  have hin : InBatch c.windows t.batch t.i := not_not.1 fun hno => hoff ((htask.off_iff t.i).2 hno)
  refine h.labelled.lt_of_notMem hi fun hmem => ?_
  exact lt_irrefl _ ((Task.passed_label hl _).1 ((htask.named_iff t.i hi hin).1 hmem))

/-- What a worker is about to write is a label. -/
theorem RegionInv.write_lt (h : RegionInv cub sums Q c G cfg) (ht : (cfg.own p).task = some t)
    (hl : t.line = .write) :
    t.current_label_map (localLabel t.current_batch_partition t.i) < c.node_n := by
  obtain ⟨-, htask⟩ := h.task p t ht
  obtain ⟨hi, hin, hw⟩ := htask.write hl
  have hmem : t.i ∈ G.named := by
    rw [htask.named_iff t.i hi hin, Task.passed_write hl]
    exact Nat.lt_succ_self _
  rw [← hw]
  exact (h.labelled.lt t.i hmem).trans_le h.labelled.le

end Region

/-- **The labels of a round** are dense and separate the batches, on any schedule, when the grid of
the node kernels fits or no batch is refined. -/
theorem handout_ok {max_gpus : ℕ} (cub : Cub) (sums : SumsOf) (max : ℕ) (s : State max_gpus)
    (hne : s.edges ≠ []) (hids : IdsBelow s.new_node_n s.edges) (hgr : Grouped s.edges)
    (hmax : 1 ≤ max) (hfit : KernelsFit max s.new_node_n s.edges) : Handout cub sums max s := by
  have hlt : s.new_node_n < 2 ^ 32 := by
    have := hfit.lt
    omega
  have hpos : 0 < s.new_node_n := by
    obtain ⟨e, l, he⟩ := List.exists_cons_of_ne_nil hne
    have := (hids e (by simp [he])).1
    omega
  have hsmall : SmallParts cub sums max s.new_node_n s.edges anyDevice :=
    hfit.smallParts hmax hpos
  have hd := disjoint_windows (n := s.new_node_n) hgr hmax
  have hround : ∀ s', Round cub sums anyDevice max s s' →
      RoundSpec cub sums max s.new_node_n s.edges anyDevice s'.w s'.new_node_n := fun s' hs' =>
    (hs'.spec hlt hgr hne hmax hsmall).labels
  constructor
  · intro cfg hm p t ht hi _
    obtain ⟨G, hG⟩ := Moves.regionInv hlt hgr hmax hsmall hm
    exact hG.local_lt hsmall ht hi
  · intro cfg hm p t ht hl hi hoff _
    obtain ⟨G, hG⟩ := Moves.regionInv hlt hgr hmax hsmall hm
    exact hG.new_lt ht hl hi hoff
  · intro cfg hm p t ht hl
    obtain ⟨G, hG⟩ := Moves.regionInv hlt hgr hmax hsmall hm
    exact hG.write_lt ht hl
  · rintro cfg hm hfin j hj _ rfl hw
    obtain ⟨part, -, hlab⟩ := Moves.labelled hlt hgr hmax hsmall hm hfin
    refine fill_in_label_lt hlt hlab (fun v hv u => ?_) (fun v hv hvS => ?_) hj hw
    · obtain ⟨k, -, -, hkey, -⟩ := nodeKey_of_labelled part part hd le_rfl (fun _ _ => rfl) hv
      rw [hkey]
      simp
    · exact nodeKey_of_forall_not fun k hk hin => hvS ⟨hv, k, hk, hin⟩
  · intro s' hs'
    obtain ⟨part, -, hlab⟩ := hround s' hs'
    refine ⟨hlab.le, fun v hv => hlab.lt v hv, fun l hl => ?_⟩
    obtain ⟨v, hv, hvl⟩ := hlab.onto l hl
    exact ⟨v, hv, hvl⟩
  · intro s' hs'
    obtain ⟨part, href, hlab⟩ := hround s' hs'
    refine ⟨part, href, fun u hu v hv huv => ?_⟩
    rw [hlab.eq_iff u hu v hv, nodeKey_eq_iff hd hu hv]
    exact or_iff_right huv
  · intro s' hs' e he
    have hspec := hround s' hs'
    have hle := hspec.le
    exact ⟨(hspec.lt _ (hids e he).1).trans_le hle, (hspec.lt _ (hids e he).2).trans_le hle⟩

/-- Two workers, with two batches. -/
theorem handout_ok_pairGraph : Handout Cub.reference (device_sums Cub.reference) 1
    (init pairGraph fun _ : Fin 2 => zeroDevice) :=
  handout_ok Cub.reference (device_sums Cub.reference) 1 _ (by decide) (by decide) (by decide)
    (by decide) (by decide)

/-! ## A grid of zero blocks -/

/-- `leftDevice` with labels past the number of nodes. -/
def farDevice : Device := { leftDevice with d_w := .const (2 ^ 32 - 1) }

theorem held_farDevice {n : ℕ} (h0 : 0 < n) : Held n (fun _ => 2 ^ 32 - 1) farDevice where
  d_w _ _ := rfl
  truths := (blank_leftDevice h0).truths
  mono _ _ _ _ := le_rfl
  small _ _ := by decide

/-- What a batch stops at, when a worker takes it first. -/
theorem Handout.first_lt {max_gpus : ℕ} {cub : Cub} {sums : SumsOf} {max : ℕ}
    {s : State max_gpus} (h : Handout cub sums max s) (p : Fin max_gpus) {k fuel : ℕ} {win : Window}
    {r : Refine} (hk : k < batch_count s.edges.length max)
    (hwin : windows max s.new_node_n s.edges k = some win)
    (hr : refine_loop cub (batchSums sums s.new_node_n s.edges k win) s.new_node_n win.batch_mask
      win.off_batch_node_n fuel (s.dev p) = some r)
    (h0 : 0 < s.new_node_n) (hin : win.batch_mask 0 ≠ .OFF_BATCH) :
    localLabel r.dev.d_w 0 < s.new_node_n := by
  have hmove : Exec cub sums anyDevice (env max s) (region_init max s).shared ⟨s.dev p, none⟩ _ _ :=
    Exec.refine (Finset.mem_range.2 hk) hwin trivial hr
  have hmoves := Relation.ReflTransGen.single (move_of (c := region_init max s) (p := p) rfl hmove)
  exact h.index_lt _ hmoves p (task_init s.new_node_n k win r.dev) (by simp; rfl) h0 hin

/-- **A local label past the end of `label_map`**, from what the device held. -/
theorem wideGraph_not_handout : Input wideGraph ∧ ¬ Handout Cub.reference
    (device_sums Cub.reference) 1 (init wideGraph fun _ : Fin 1 => farDevice) := by
  refine ⟨⟨by decide, by decide, by decide, by decide⟩, fun h => ?_⟩
  have hlt : wideGraph.node_n + 1 < 2 ^ 32 := by decide
  have h0 : 0 < wideGraph.node_n := by decide
  have hw : ¬ GridFits wideGraph.node_n := by decide
  have hpos : 0 < wideGraph.edges.length := by decide
  obtain ⟨win, hwin, hstart, hend⟩ := select_window_single wideGraph.node_n hpos (le_refl 1)
  have hspec := windowSpec_of_some (k := 0) (by decide) (le_refl 1) (by decide) hwin
  have hin : win.batch_mask 0 = .IN_BATCH := by
    rw [hspec.in_iff 0 h0, hstart, hend]
    decide
  obtain ⟨r, hr⟩ := refine_loop_held Cub.reference (batchSums (device_sums Cub.reference)
    wideGraph.node_n wideGraph.edges 0 win) win.batch_mask win.off_batch_node_n 0 hlt h0 hw
    (held_farDevice h0)
  have hlabel := ((held_farDevice h0).refine hlt h0 hw hr).d_w 0 h0
  have hfirst := h.first_lt 0 (show 0 < batch_count wideGraph.edges.length 1 by decide) hwin hr h0
    (by rw [hin]; decide)
  rw [localLabel, hlabel] at hfirst
  exact absurd hfirst (by decide)

end Rbsc.Workers
