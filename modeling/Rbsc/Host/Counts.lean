import Rbsc.Host.Run

/-!
# The counts of a round

What a round does whatever its refinements stop at: its labels are the numbers below their count,
and the edges become the quotient by them (`round_counted`).  So the number of nodes never grows,
and the invariant of the runs needs nothing of the grid of the node kernels (`AtRound.runInv`).

* `Counted`: what is left of a round when nothing is known about the local labels.
-/

namespace Rbsc.Host

open Arrays DoWhile Gpu Labelling

section Label

variable {n : ℕ} {batch_mask : Arr Mask} {p : Arr Word} {S : Set ℕ} {i : ℕ}

/-- The map holds the sentinel or labels. -/
def MapBelow (n m : ℕ) (label_map : Arr ℕ) : Prop := ∀ l, label_map l = n ∨ label_map l < m

theorem mapBelow_init (n m : ℕ) : MapBelow n m (label_map_init n) := fun l => by
  left
  by_cases hl : l < n
  · exact fill_of_lt _ _ hl
  · exact fill_of_le _ _ (by omega)

/-- **One node of a batch**, whatever its local label is. -/
theorem label_step_count {s : Labels} (hn : n < 2 ^ 32) (h : Labelled n s.w S s.w s.new_node_n)
    (hmap : MapBelow n s.new_node_n s.label_map) (hi : i < n) (hiS : i ∉ S)
    (hoff : batch_mask i ≠ .OFF_BATCH) :
    Labelled n (label_step n batch_mask p s i).w (insert i S) (label_step n batch_mask p s i).w
        (label_step n batch_mask p s i).new_node_n ∧
      MapBelow n (label_step n batch_mask p s i).new_node_n
        (label_step n batch_mask p s i).label_map := by
  have hlt := h.lt_of_notMem hi hiS
  have hstep := h.step_count hi hiS (hmap (localLabel p i))
  rw [label_step, if_neg hoff]
  by_cases hnew : s.label_map (localLabel p i) = n
  · have hnew' : s.label_map (nodeT (p i).toNat) = n := hnew
    rw [if_pos hnew, if_pos hnew] at hstep
    dsimp only
    rw [if_pos hnew']
    rw [show nodeT (s.new_node_n + 1) = s.new_node_n + 1 from nodeT_of_lt (by omega)]
    refine ⟨hstep, fun l => ?_⟩
    rw [Arr.set_apply]
    split_ifs
    · exact Or.inr (Nat.lt_succ_self _)
    · exact (hmap l).imp id fun hl => hl.trans (Nat.lt_succ_self _)
  · have hnew' : ¬ s.label_map (nodeT (p i).toNat) = n := hnew
    rw [if_neg hnew, if_neg hnew] at hstep
    dsimp only
    rw [if_neg hnew']
    exact ⟨hstep, hmap⟩

theorem label_loop_count {s : Labels} (hn : n < 2 ^ 32) (h : Labelled n s.w S s.w s.new_node_n)
    (hS : ∀ v ∈ batchNodes n batch_mask, v ∉ S) :
    Labelled n (label_loop n batch_mask p s).w (S ∪ batchNodes n batch_mask)
      (label_loop n batch_mask p s).w (label_loop n batch_mask p s).new_node_n := by
  refine (foldl_insert (P := fun S' (s' : Labels) => Labelled n s'.w S' s'.w s'.new_node_n ∧
      MapBelow n s'.new_node_n s'.label_map) (T := fun v => batch_mask v ≠ .OFF_BATCH)
    (s := { s with label_map := label_map_init n }) ⟨h, mapBelow_init _ _⟩ (fun i hi hoff => ?_)
    (fun i _ hoff S' s' _ hP => ?_) (fun i hi hoff S' s' hiS hP => ?_) n le_rfl).1
  · exact hS i ⟨hi, hoff⟩
  · rw [label_step_of_off (not_not.1 hoff)]
    exact hP
  · exact label_step_count hn hP.1 hP.2 hi hiS hoff

theorem fill_in_count {s : Names} (hn : n < 2 ^ 32) (h : Labelled n s.w S s.w s.new_node_n) :
    Labelled n (fill_in n s).w {v | v < n} (fill_in n s).w (fill_in n s).new_node_n := by
  have hall : Labelled n (fill_in n s).w (S ∪ {v | v < n ∧ v ∉ S}) (fill_in n s).w
      (fill_in n s).new_node_n := by
    refine foldl_insert (P := fun S' (s' : Names) => Labelled n s'.w S' s'.w s'.new_node_n) h
      (fun i _ hiS => hiS) (fun i _ hiS S' s' hsub hP => ?_) (fun i hi _ S' s' hiS hP => ?_) n le_rfl
    · have hlt := hP.lt i (hsub (not_not.1 hiS))
      have hle := hP.le
      rw [fill_in_step, if_neg (by omega)]
      exact hP
    · have hlt := hP.lt_of_notMem hi hiS
      have hstep := hP.step_count hi hiS (Or.inl rfl)
      rw [if_pos rfl, if_pos rfl] at hstep
      rw [fill_in_step, if_pos (hP.fresh i hi hiS)]
      dsimp only
      rwa [nodeT_of_lt (by omega)]
  have hset : S ∪ {v | v < n ∧ v ∉ S} = {v | v < n} := by
    ext v
    constructor
    · rintro (hv | hv)
      · exact h.mem_lt v hv
      · exact hv.1
    · exact fun hv => (Classical.em (v ∈ S)).imp id fun hvS => ⟨hv, hvS⟩
  rwa [hset] at hall

end Label

section Round

variable {cub : Cub} {sums : SumsOf} {max fuel : ℕ} {s s' : State}

/-- The batches of a round, whatever their refinements stop at. -/
theorem run_batches_count {n : ℕ} {edges : List Edge} (hn : n < 2 ^ 32) (hgr : Grouped edges)
    (hmax : 1 ≤ max) (s₀ : Batches) (h0 : ∀ v < n, s₀.w v = n) (h0' : s₀.new_node_n = 0) :
    ∀ m ≤ batch_count edges.length max, ∀ s, run_batches cub sums max n edges fuel m s₀ = some s →
      Labelled n s.w (labelledNodes n (windows max n edges) m) s.w s.new_node_n := by
  have hd : DisjointBatches n (windows max n edges) (batch_count edges.length max) :=
    disjoint_windows hgr hmax
  intro m
  induction m with
  | zero =>
    rintro - s hs
    cases hs
    have hempty : labelledNodes n (windows max n edges) 0 = ∅ := by
      ext v
      simp [labelledNodes]
    rw [hempty, h0']
    exact Labelled.empty h0
  | succ m ih =>
    intro hm s hs
    rw [run_batches_succ] at hs
    obtain ⟨s', hs', hb⟩ := Option.bind_eq_some_iff.1 hs
    have ih := ih (by omega) s' hs'
    unfold run_batch at hb
    cases hw : select_window max n edges m with
    | none =>
      rw [hw] at hb
      cases hb
      rw [labelledNodes_skip (show windows max n edges m = none from hw)]
      exact ih
    | some W =>
      rw [hw] at hb
      obtain ⟨r, -, rfl⟩ := Option.map_eq_some_iff.1 hb
      rw [labelledNodes_succ (show windows max n edges m = some W from hw)]
      exact label_loop_count hn ih fun v hv => notMem_labelledNodes (hd.mono hm) hw hv

/-- A round, whatever its refinements stop at. -/
structure Counted (max : ℕ) (s s' : State) : Prop where
  node_n : s'.node_n = s.new_node_n
  batches : s'.batches = batch_count s.edges.length max
  labels : Labelled s.new_node_n s'.w {v | v < s.new_node_n} s'.w s'.new_node_n
  edges : s'.edges = if 1 < batch_count s.edges.length max then quotientEdges s'.w s.edges
    else s.edges

/-- **A round**, whatever its refinements stop at. -/
theorem round_counted (hlt : s.new_node_n < 2 ^ 32) (hgr : Grouped s.edges) (hne : s.edges ≠ [])
    (hmax : 1 ≤ max) (h : round cub sums max fuel s = some s') : Counted max s s' := by
  obtain ⟨r, hr, hs'⟩ := Option.map_eq_some_iff.1 h
  have hlab := run_batches_count hlt hgr hmax (batches_init s) (fun v hv => fill_of_lt _ _ hv) rfl _
    le_rfl r hr
  by_cases hb : 1 < batch_count s.edges.length max
  · rw [if_pos hb] at hs'
    subst hs'
    refine ⟨rfl, rfl, fill_in_count (s := ⟨r.w, r.new_node_n⟩) hlt hlab, ?_⟩
    rw [if_pos hb]
    exact compact_eq _ _ hgr
  · rw [if_neg hb] at hs'
    subst hs'
    rw [labelledNodes_single hgr hne hmax hb] at hlab
    exact ⟨rfl, rfl, hlab, (if_neg hb).symm⟩

/-- **The number of nodes never grows.** -/
theorem Counted.le (h : Counted max s s') : s'.new_node_n ≤ s.new_node_n := h.labels.le

variable {g : Graph} {k : ℕ} {extra : ℕ → ℕ → Bool} {dev : Device}

/-- What the next round starts with. -/
theorem RunInv.next_counted (h : RunInv g k s) (hr : Counted max s s') (ha : again extra s' = true) :
    RunInv g (k + 1) s' :=
  h.next_quotient hr.node_n hr.batches (fun v hv => hr.labels.lt v hv) hr.edges ha

theorem RunInv.counted (h : RunInv g k s) (hn : g.node_n < 2 ^ 32) (hmax : 1 ≤ max)
    (hr : round cub sums max fuel s = some s') : Counted max s s' :=
  round_counted (by have := h.le; omega) h.grouped h.nonempty hmax hr

/-- **The invariant of the run**, on any grid. -/
theorem AtRound.runInv (hg : Input g) (hn : g.node_n < 2 ^ 32) (hmax : 1 ≤ max)
    (hs : AtRound cub sums extra max g dev k s) : RunInv g k s := by
  obtain ⟨fuel, hs⟩ := hs
  exact hs.inv (RunInv.init hg dev) fun _ _ _ _ hinv hb ha =>
    hinv.next_counted (hinv.counted hn hmax hb) ha

end Round

end Rbsc.Host
