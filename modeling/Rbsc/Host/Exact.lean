import Rbsc.Host.Run

/-!
# Rounds without collisions

The labels of a round without collisions are a stable partition of the graph of the round
(`round_stable`), so the rewritten edges are its quotient (`round_isQuotient`).  A round with one
batch reaches the coarsest one (`round_single`).

* `CollisionFreeRun`: no pass of the run has a collision.
-/

namespace Rbsc.Host

open Arrays DoWhile Gpu Labelling Lumping DenseRank

/-- The weights are positive, and their exact total fits in 64 bits. -/
structure WeightedInput (g : Graph) : Prop extends Input g where
  pos : PosWeights g.edges
  total : totalWeight g.edges < 2 ^ 64

/-- The refinement of the window of batch `k`, from the device `d`, has no collision. -/
def batchCollisionFree (cub : Cub) (max n : ℕ) (edges : List Edge) (k : ℕ) (d : Device) : Prop :=
  ∀ win, windows max n edges k = some win →
    CollisionFree cub n (slice edges win.batch_start win.batch_end) win.batch_mask
      win.off_batch_node_n d

/-- No pass of the round that starts in `s` has a collision. -/
def CollisionFreeRound (cub : Cub) (max : ℕ) (s : State) : Prop :=
  StartsIn cub (device_sums cub) max (batchCollisionFree cub max s.new_node_n s.edges) s

/-- No pass of the run has a collision. -/
def CollisionFreeRun (cub : Cub) (extra : ℕ → ℕ → Bool) (max : ℕ) (g : Graph) (dev : Device) :
    Prop :=
  ∀ k s, AtRound cub (device_sums cub) extra max g dev k s → CollisionFreeRound cub max s

/-- Batches of one edge have one node, and no collision. -/
theorem collisionFreeRun_one (cub : Cub) (extra : ℕ → ℕ → Bool) (g : Graph) (dev : Device) :
    CollisionFreeRun cub extra 1 g dev := by
  intro k s _ fuel j hj b _ win hwin _ r _ u v hu hv _
  have hraw : rawStart 1 j < s.edges.length := (lt_batch_count le_rfl).1 hj
  obtain ⟨-, -, -, -, -, -, -, hmask, -⟩ := select_window_some hraw le_rfl hwin
  have hsrc : ∀ x : Fin s.new_node_n, win.batch_mask x = .IN_BATCH →
      startAt s.edges j = x := fun x hx => by
    rw [hmask x, mask_init_apply x.2] at hx
    split_ifs at hx with h₁ h₂
    obtain ⟨i, hi, hi', hix⟩ := h₂
    have : i = j := by unfold rawStart at hi'; unfold rawEnd at hi; omega
    rw [← this, hix]
  rw [Fin.ext ((hsrc u hu).symm.trans (hsrc v hv))]
  exact SameWeights.refl _

/-! ## The partition of a round -/

section Partition

variable {cub : Cub} {max n m : ℕ} {edges : List Edge} {w : Arr ℕ}

/-- Weights of equal rows. -/
theorem sameWeights_of_rows {W W' : Fin n → Fin n → ℕ} {r : Setoid (Fin n)} {u v : Fin n}
    (hu : ∀ y, W u y = W' u y) (hv : ∀ y, W v y = W' v y) (h : SameWeights W r u v) :
    SameWeights W' r u v := by
  intro x
  have := h x
  simpa only [classWeight, hu, hv] using this

/-- A node of a batch has its edges in the window. -/
theorem weights_slice (hgr : Grouped edges) (hmax : 1 ≤ max) {k : ℕ}
    (hk : k < batch_count edges.length max) {win : Window}
    (hwin : windows max n edges k = some win) {u : Fin n} (hu : win.batch_mask u ≠ .OFF_BATCH)
    (y : Fin n) :
    weights (slice edges win.batch_start win.batch_end) n u y = weights edges n u y := by
  have hspec := windowSpec_of_some hgr hmax hk hwin
  cases hm : win.batch_mask u with
  | OFF_BATCH => exact absurd hm hu
  | IN_BATCH => exact hspec.edgeWeight_slice hgr ((hspec.in_iff u u.2).1 hm) y
  | DANGLING =>
    have hns := ((hspec.dangling_iff u u.2).1 hm).2
    have hns' : ¬ IsSource (slice edges win.batch_start win.batch_end) u := fun ⟨e, he, hes⟩ =>
      hns ⟨e, mem_of_mem_slice he, hes⟩
    rw [weights, weights, edgeWeight_eq_zero hns, edgeWeight_eq_zero hns']

/-- What the refinement of a window stops at, without collisions. -/
theorem Refined.partition_eq {k : ℕ} {p : Arr Word} (hfit : GridFits n) (hn : 0 < n)
    (hgr : Grouped edges) (hids : IdsBelow n edges) (hmax : 1 ≤ max)
    (hk : k < batch_count edges.length max)
    (h : Refined cub (device_sums cub) max n edges (batchCollisionFree cub max n edges) k p)
    {win : Window} (hwin : windows max n edges k = some win) :
    labelPartition n p = coarsest (weights (slice edges win.batch_start win.batch_end) n)
      (maskPartition n win.batch_mask) := by
  have hspec := windowSpec_of_some hgr hmax hk hwin
  obtain ⟨fuel, d, r, hcf, hr, rfl⟩ := h win hwin
  exact partition_eq_coarsest hfit hn (hspec.windowOk hgr hids) hspec.off_count (hcf win hwin) hr

theorem Refined.lt {sums : SumsOf} {Q : ℕ → Device → Prop} {k : ℕ} {p : Arr Word}
    (hfit : GridFits n) (hn : 0 < n) (h : Refined cub sums max n edges Q k p) {win : Window}
    (hwin : windows max n edges k = some win) {v : ℕ} (hv : v < n) : (p v).toNat < n := by
  obtain ⟨fuel, d, r, -, hr, rfl⟩ := h win hwin
  exact refine_loop_lt hfit hn hr hv

/-- The labels of a round: one node, or two nodes of one batch with one local label. -/
theorem RoundSpec.eq_iff {sums : SumsOf} {Q : ℕ → Device → Prop} (hfit : KernelsFit max n edges)
    (hn : 0 < n) (hgr : Grouped edges) (hmax : 1 ≤ max) (h : RoundSpec cub sums max n edges Q w m) :
    ∃ part : ℕ → Arr Word,
      (∀ k < batch_count edges.length max, Refined cub sums max n edges Q k (part k)) ∧
        ∀ u < n, ∀ v < n, w u = w v ↔ u = v ∨ ∃ k < batch_count edges.length max, ∃ win,
          windows max n edges k = some win ∧ win.batch_mask u ≠ .OFF_BATCH ∧
            win.batch_mask v ≠ .OFF_BATCH ∧ part k u = part k v := by
  obtain ⟨part, href, hlab⟩ := h
  refine ⟨part, href, fun u hu v hv => ?_⟩
  rw [hlab.eq_iff u hu v hv, nodeKey_eq_iff (disjoint_windows hgr hmax) hu hv]
  refine or_congr_right (exists_congr fun k => and_congr_right fun hk => ?_)
  have hlocal : ∀ win, windows max n edges k = some win →
      (localLabel (part k) u = localLabel (part k) v ↔ part k u = part k v) := fun win hwin => by
    have hgrid := hfit.gridFits hmax hwin
    have hu' := (href k hk).lt hgrid hn hwin hu
    have hv' := (href k hk).lt hgrid hn hwin hv
    rw [localLabel_eq hgrid hu', localLabel_eq hgrid hv', BitVec.toNat_inj]
  constructor
  · rintro ⟨⟨win, hwin, hmu⟩, ⟨win', hwin', hmv⟩, hl⟩
    cases hwin.symm.trans hwin'
    exact ⟨win, hwin, hmu, hmv, (hlocal win hwin).1 hl⟩
  · rintro ⟨win, hwin, hmu, hmv, hl⟩
    exact ⟨⟨win, hwin, hmu⟩, ⟨win, hwin, hmv⟩, (hlocal win hwin).2 hl⟩

/-- **The labels of a round are stable.**  The windows were refined with the nodes of the others
apart, and merging the classes of all windows at once keeps the weights. -/
theorem round_stable (hfit : KernelsFit max n edges) (hn : 0 < n) (hgr : Grouped edges)
    (hids : IdsBelow n edges) (hmax : 1 ≤ max)
    (h : RoundSpec cub (device_sums cub) max n edges (batchCollisionFree cub max n edges) w m) :
    Stable (weights edges n) (labelPartition n w) := by
  obtain ⟨part, href, heq⟩ := h.eq_iff hfit hn hgr hmax
  intro u v huv
  rcases (heq u u.2 v v.2).1 huv with huv | ⟨k, hk, win, hwin, hmu, hmv, hp⟩
  · rw [Fin.ext huv]
    exact SameWeights.refl _
  · -- both are in one window, and its partition is stable for the window
    have hpart := (href k hk).partition_eq (hfit.gridFits hmax hwin) hn hgr hids hmax hk hwin
    have hle : labelPartition n (part k) ≤ labelPartition n w := by
      intro x y hxy
      have hmask : maskPartition n win.batch_mask x y := by
        rw [hpart] at hxy
        exact coarsest_le _ _ hxy
      rcases hmask with rfl | ⟨hm, hoff⟩
      · exact rfl
      · exact (heq x x.2 y y.2).2 (Or.inr ⟨k, hk, win, hwin, hoff, hm ▸ hoff, hxy⟩)
    have hst : SameWeights (weights (slice edges win.batch_start win.batch_end) n)
        (labelPartition n (part k)) u v := by
      rw [hpart]
      refine coarsest_stable _ _ u v ?_
      rw [← hpart]
      exact hp
    exact sameWeights_of_rows (weights_slice hgr hmax hk hwin hmu)
      (weights_slice hgr hmax hk hwin hmv) (hst.mono hle)

/-- The labels, as a map onto the nodes of the quotient. -/
def labelMap (q : ℕ → ℕ) (n m : ℕ) (h : ∀ v < n, q v < m) (v : Fin n) : Fin m := ⟨q v, h v v.2⟩

theorem ker_labelMap {q : ℕ → ℕ} (h : ∀ v < n, q v < m) :
    Setoid.ker (labelMap q n m h) = labelPartition n q := by
  ext u v
  exact Fin.ext_iff

/-- **The quotient of a round.** -/
theorem round_isQuotient (hfit : KernelsFit max n edges) (hn : 0 < n) (hgr : Grouped edges)
    (hids : IdsBelow n edges) (htot : totalWeight edges < 2 ^ 64) (hmax : 1 ≤ max)
    (h : RoundSpec cub (device_sums cub) max n edges (batchCollisionFree cub max n edges) w m) :
    Function.Surjective (labelMap w n m h.lt) ∧
      IsQuotient (weights edges n) (labelMap w n m h.lt) (weights (quotientEdges w edges) m) := by
  have hsurj : Function.Surjective (labelMap w n m h.lt) := by
    obtain ⟨part, -, hlab⟩ := id h
    intro c
    obtain ⟨v, hv, hvc⟩ := hlab.onto c c.2
    exact ⟨⟨v, hv⟩, Fin.ext hvc⟩
  refine ⟨hsurj, isQuotient hids htot _ hsurj (fun _ => rfl) ?_⟩
  rw [ker_labelMap]
  exact round_stable hfit hn hgr hids hmax h

end Partition

/-! ## A round with one batch -/

section Single

variable {max n m : ℕ} {edges : List Edge} {w : Arr ℕ}

/-- A source with the weights of a node without edges has edges of weight zero only. -/
theorem weight_zero_of_sameWeights (hids : IdsBelow n edges) {r : Setoid (Fin n)} {u v : Fin n}
    (h : SameWeights (weights edges n) r u v) (hv : ¬ IsSource edges v) :
    ∀ e ∈ edges, e.edge_start = u → e.edge_weight = 0 := by
  intro e he hes
  have hsum := h.sum_eq (fun _ => AddMonoidHom.id ℕ) fun _ _ _ => rfl
  simp only [AddMonoidHom.id_apply] at hsum
  have hzero : ∑ y, weights edges n v y = 0 :=
    Finset.sum_eq_zero fun y _ => edgeWeight_eq_zero hv y
  rw [hzero, Finset.sum_eq_zero_iff] at hsum
  have h0 := hsum ⟨e.edge_end, (hids e he).2⟩ (Finset.mem_univ _)
  have hle : e.edge_weight ≤ edgeWeight edges u e.edge_end :=
    List.single_le_sum (fun _ _ => Nat.zero_le _) _
      (List.mem_map_of_mem (List.mem_filter.2 ⟨he, by simpa using hes⟩))
  have h0 : edgeWeight edges u e.edge_end = 0 := h0
  omega

/-- With positive weights, equivalent nodes are both sources or both dangling. -/
theorem isSource_of_sameWeights (hids : IdsBelow n edges) (hpos : PosWeights edges)
    {r : Setoid (Fin n)} {u v : Fin n} (h : SameWeights (weights edges n) r u v)
    (hu : IsSource edges u) : IsSource edges v := by
  by_contra hv
  obtain ⟨e, he, hes⟩ := hu
  have h₁ := weight_zero_of_sameWeights hids h hv e he hes
  have h₂ := hpos e he
  omega

/-- The one window of a round with one batch. -/
theorem exists_single_window (hgr : Grouped edges) (hne : edges ≠ []) (hle : edges.length ≤ max) :
    ∃ win, windows max n edges 0 = some win ∧ slice edges win.batch_start win.batch_end = edges ∧
      WindowSpec max n edges 0 win ∧ ∀ v < n, win.batch_mask v ≠ .OFF_BATCH := by
  have hpos : 0 < edges.length := List.length_pos_iff.2 hne
  obtain ⟨win, hwin, h₁, h₂⟩ := select_window_single n hpos hle
  refine ⟨win, hwin, by rw [h₁, h₂, slice_all], ?_, fun v hv => ?_⟩
  · exact windowSpec_of_some hgr (by omega) (batch_count_pos (by omega) hpos) hwin
  · obtain ⟨win', hwin', hm⟩ := inBatch_single hgr hpos hle hv
    cases hwin.symm.trans hwin'
    exact hm

/-- Sources and dangling nodes: the first partition of a round with one batch. -/
theorem maskPartition_single {win : Window} (h : WindowSpec max n edges 0 win)
    (hoff : ∀ v < n, win.batch_mask v ≠ .OFF_BATCH) {u v : Fin n} :
    maskPartition n win.batch_mask u v ↔ (IsSource edges u ↔ IsSource edges v) := by
  have hd : ∀ x : Fin n, win.batch_mask x = .DANGLING ↔ ¬ IsSource edges x := fun x => by
    rw [h.dangling_iff x x.2]
    simp
  have hcase : ∀ x : Fin n, win.batch_mask x = .IN_BATCH ∨ win.batch_mask x = .DANGLING :=
    fun x => by
      cases hm : win.batch_mask x with
      | OFF_BATCH => exact absurd hm (hoff x x.2)
      | IN_BATCH => exact Or.inl rfl
      | DANGLING => exact Or.inr rfl
  rw [maskPartition_iff]
  constructor
  · rintro (rfl | ⟨hm, -⟩)
    · exact Iff.rfl
    · rw [← not_iff_not, ← hd, ← hd, hm]
  · intro huv
    refine Or.inr ⟨?_, hoff u u.2⟩
    rw [← not_iff_not, ← hd, ← hd] at huv
    rcases hcase u with hu | hu
    · rcases hcase v with hv | hv
      · rw [hu, hv]
      · rw [huv.2 hv, hv]
    · rw [huv.1 hu, hu]

/-- With positive weights the first partition costs nothing. -/
theorem coarsest_single (hids : IdsBelow n edges) (hpos : PosWeights edges) {win : Window}
    (h : WindowSpec max n edges 0 win) (hoff : ∀ v < n, win.batch_mask v ≠ .OFF_BATCH) :
    coarsest (weights edges n) (maskPartition n win.batch_mask) = coarsest (weights edges n) ⊤ := by
  refine le_antisymm (coarsest_mono le_top) (le_coarsest (fun u v huv => ?_)
    (coarsest_stable _ _))
  have hst := coarsest_stable _ _ u v huv
  exact (maskPartition_single h hoff).2 ⟨isSource_of_sameWeights hids hpos hst,
    isSource_of_sameWeights hids hpos hst.symm⟩

/-- The labels of a round with one batch are those of its refinement. -/
theorem RoundSpec.single {cub : Cub} {sums : SumsOf} {Q : ℕ → Device → Prop} (hfit : GridFits n)
    (hn : 0 < n) (hgr : Grouped edges) (hne : edges ≠ []) (hle : edges.length ≤ max)
    (h : RoundSpec cub sums max n edges Q w m) :
    ∃ p, Refined cub sums max n edges Q 0 p ∧ labelPartition n w = labelPartition n p ∧
      m = classCount (labelPartition n p) := by
  have hpos : 0 < edges.length := List.length_pos_iff.2 hne
  have hmax : 1 ≤ max := by omega
  obtain ⟨win, hwin, -, -, hoff⟩ := exists_single_window (n := n) hgr hne hle
  obtain ⟨part, href, heq⟩ := h.eq_iff (Or.inl hfit) hn hgr hmax
  obtain ⟨_, -, hlab⟩ := id h
  rw [batch_count_eq_one hpos hle] at href heq
  have hpart : labelPartition n w = labelPartition n (part 0) := by
    ext u v
    rw [labelPartition_iff, labelPartition_iff, heq u u.2 v v.2]
    constructor
    · rintro (huv | ⟨k, hk, -, -, -, -, hp⟩)
      · rw [huv]
      · rwa [Nat.lt_one_iff.1 hk] at hp
    · exact fun hp => Or.inr ⟨0, by omega, win, hwin, hoff u u.2, hoff v v.2, hp⟩
  refine ⟨part 0, href 0 (by omega), hpart, ?_⟩
  rw [← hpart, classCount_labelPartition]
  exact (hlab.keyCount_eq fun v hv => hv).symm

/-- **A round with one batch is exact.** -/
theorem round_single {cub : Cub} (hfit : KernelsFit max n edges) (hn : 0 < n) (hgr : Grouped edges)
    (hids : IdsBelow n edges) (hpos : PosWeights edges) (hne : edges ≠ [])
    (hle : edges.length ≤ max)
    (h : RoundSpec cub (device_sums cub) max n edges (batchCollisionFree cub max n edges) w m) :
    m = classCount (coarsest (weights edges n) ⊤) := by
  have hlen : 0 < edges.length := List.length_pos_iff.2 hne
  obtain ⟨win, hwin, hslice, hspec, hoff⟩ := exists_single_window (n := n) hgr hne hle
  have hgrid := hfit.gridFits (by omega) hwin
  obtain ⟨p, href, -, hm⟩ := h.single hgrid hn hgr hne hle
  have hpart := href.partition_eq hgrid hn hgr hids (by omega) (batch_count_pos (by omega) hlen) hwin
  rw [hslice, coarsest_single hids hpos hspec hoff] at hpart
  rw [hm, hpart]

end Single

end Rbsc.Host
