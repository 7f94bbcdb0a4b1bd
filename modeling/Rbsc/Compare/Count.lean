import Rbsc.Compare.Classes

/-!
# The two counts

When do `rsc` and `rbsc` with one batch print the same count?  `rsc` counts the classes of the
coarsest BE partition.  `rbsc` counts those of the coarsest one that keeps the nodes with edges apart
from the nodes without, and counts nothing when there are no edges (`same_count_iff`).
-/

namespace Rbsc.Compare

open Arrays DoWhile Lumping DenseRank Gpu Host

/-- Both programs end, and print the same count. -/
def SameCount (srt : Rsc.StdSort) (cub : Cub) (extra : ℕ → ℕ → Bool) (max : ℕ) (g : Graph)
    (dev : Device) : Prop :=
  ∃ fuel s s', Rsc.rsc randomize srt g fuel = some s ∧
    rbsc cub (device_sums cub) extra max g dev fuel = some s' ∧ s.new_node_n = s'.new_node_n

/-- A node without edges, beside a node whose edges all have weight zero. -/
def ZeroBesideDangling (g : Graph) : Prop :=
  (∃ v < g.node_n, ¬ IsSource g.edges v) ∧
    ∃ u, IsSource g.edges u ∧ ∀ e ∈ g.edges, e.edge_start = u → e.edge_weight = 0

section Mask

variable {max : ℕ} {g : Graph} {win : Window}

/-- When the first partition of `rbsc` costs nothing. -/
theorem coarsest_le_maskPartition_iff (hids : IdsBelow g.node_n g.edges)
    (h : WindowSpec max g.node_n g.edges 0 win)
    (hoff : ∀ v < g.node_n, win.batch_mask v ≠ .OFF_BATCH) :
    coarsestBE g ≤ maskPartition g.node_n win.batch_mask ↔ ¬ ZeroBesideDangling g := by
  constructor
  · rintro hle ⟨⟨v, hv, hvs⟩, u, hus, hzero⟩
    have hun : u < g.node_n := by
      obtain ⟨e, he, rfl⟩ := hus
      exact (hids e he).1
    -- both nodes send no weight anywhere, so they are equivalent
    have hrow : ∀ y, weights g.edges g.node_n ⟨u, hun⟩ y = 0 := fun y =>
      List.sum_eq_zero fun x hx => by
        obtain ⟨e, he, rfl⟩ := List.mem_map.1 hx
        obtain ⟨he, hcond⟩ := List.mem_filter.1 he
        exact hzero e he (of_decide_eq_true hcond).1
    have hrow' : ∀ y, weights g.edges g.node_n ⟨v, hv⟩ y = 0 := fun y => edgeWeight_eq_zero hvs y
    have hrel : coarsestBE g ⟨u, hun⟩ ⟨v, hv⟩ := by
      rw [coarsestBE, coarsest_top_iff]
      intro x
      simp [classWeight, hrow, hrow']
    exact hvs (((maskPartition_single h hoff).1 (hle hrel)).1 hus)
  · intro hno u v huv
    have hst := coarsest_stable _ _ u v huv
    refine (maskPartition_single h hoff).2 ⟨fun hu => ?_, fun hv => ?_⟩
    · by_contra hv
      exact hno ⟨⟨v, v.2, hv⟩, u, hu, weight_zero_of_sameWeights hids hst hv⟩
    · by_contra hu
      exact hno ⟨⟨u, u.2, hu⟩, v, hv, weight_zero_of_sameWeights hids hst.symm hu⟩

/-- The coarsest partition below another has the same number of classes as the coarsest of all
exactly when it is that one. -/
theorem classCount_coarsest_eq_iff {V : Type*} [Fintype V] {W : V → V → ℕ} {b : Setoid V} :
    classCount (coarsest W ⊤) = classCount (coarsest W b) ↔ coarsest W ⊤ ≤ b := by
  have hle : coarsest W b ≤ coarsest W ⊤ := coarsest_mono le_top
  constructor
  · intro h
    rw [← eq_of_le_of_classCount_le hle h.ge]
    exact coarsest_le W b
  · intro h
    rw [le_antisymm hle (le_coarsest h (coarsest_stable W ⊤))]

end Mask

section Count

variable {cub : Cub} {extra : ℕ → ℕ → Bool} {max : ℕ} {g : Graph} {dev : Device} {fuel : ℕ}
  {s : State}

/-- Without edges there is no batch, and the count stays zero. -/
theorem count_of_nil (hnil : g.edges = []) (hmax : 1 ≤ max)
    (h : rbsc cub (device_sums cub) extra max g dev fuel = some s) : s.new_node_n = 0 := by
  have hzero : batch_count g.edges.length max = 0 := by
    rw [hnil]
    exact Nat.div_eq_of_lt (by rw [List.length_nil]; omega)
  obtain ⟨fuel, hr⟩ := single_run (hzero.le.trans (Nat.zero_le 1)) h
  obtain ⟨b, hb, hs⟩ := Option.map_eq_some_iff.1 hr
  change run_batches _ _ _ _ _ _ (batch_count g.edges.length max) _ = _ at hb
  change (if batch_count g.edges.length max > 1 then _ else _) = s at hs
  rw [hzero] at hb hs
  cases hb
  cases hs
  rfl

/-- A run with one batch ends. -/
theorem rbsc_single_returns (cub : Cub) (sums : SumsOf) (extra : ℕ → ℕ → Bool) (dev : Device)
    (hfit : GridFits g.node_n) (hn : 1 ≤ g.node_n) (hmax : 1 ≤ max)
    (hone : batch_count g.edges.length max ≤ 1) :
    ∃ s, rbsc cub sums extra max g dev (g.node_n + 1) = some s := by
  rw [rbsc_single hone]
  exact round_returns (Or.inl hfit) hmax hn le_rfl

/-- The count of a run with one batch that has edges, without collisions. -/
theorem count_of_single (hg : Input g) (hfit : GridFits g.node_n) (hmax : g.edges.length ≤ max)
    (hcf : CollisionFreeRun cub extra max g dev)
    (h : rbsc cub (device_sums cub) extra max g dev fuel = some s) :
    s.new_node_n = beClasses g ↔ ¬ ZeroBesideDangling g := by
  have hlen : 0 < g.edges.length := List.length_pos_iff.2 hg.nonempty
  obtain ⟨win, hwin, hslice, hspec, hoff⟩ :=
    exists_single_window (n := g.node_n) hg.grouped hg.nonempty hmax
  obtain ⟨fuel, hr⟩ := single_run (batch_count_eq_one hlen hmax).le h
  obtain ⟨-, -, hround, -⟩ := (RunInv.init hg dev).round_spec (Or.inl hfit) (by omega)
    (hcf 0 (Host.init g dev) ⟨0, .start⟩) hr
  obtain ⟨p, href, -, hm⟩ := hround.single hfit hg.node_pos hg.grouped hg.nonempty hmax
  -- the refinement stops at the coarsest stable partition below its first one
  have hpart := href.partition_eq hfit hg.node_pos hg.grouped hg.ids (by omega)
    (batch_count_pos (by omega) hlen) hwin
  change labelPartition g.node_n p = _ at hpart
  rw [hslice] at hpart
  rw [hm, hpart, eq_comm, beClasses, coarsestBE, classCount_coarsest_eq_iff,
    ← coarsest_le_maskPartition_iff hg.ids hspec hoff, coarsestBE]

/-- **When the two programs print the same count.**  On runs without collisions, and with one batch
for `rbsc`: exactly when there is an edge, and no node whose edges all have weight zero stands
beside a node without edges. -/
theorem same_count_iff (srt : Rsc.StdSort) (cub : Cub) (extra : ℕ → ℕ → Bool) (max : ℕ) (g : Graph)
    (dev : Device) (hg : Rsc.Accepted g) (hlt : g.node_n < 2 ^ 31) (hgr : Grouped g.edges)
    (hmax : 1 ≤ max) (hlen : g.edges.length ≤ max)
    (hrsc : Rsc.CollisionFree randomize srt g) (hrbsc : CollisionFreeRun cub extra max g dev) :
    SameCount srt cub extra max g dev ↔ g.edges ≠ [] ∧ ¬ ZeroBesideDangling g := by
  have hfit : GridFits g.node_n := by
    unfold GridFits THREAD_N
    omega
  have hone : batch_count g.edges.length max ≤ 1 := by
    by_contra hb
    have := (lt_batch_count hmax).1 (by omega : 1 < batch_count g.edges.length max)
    omega
  have hpos : 0 < beClasses g := by
    have := Rsc.nonempty_of_accepted hg
    exact classCount_pos
  constructor
  · rintro ⟨fuel, s, s', hs, hs', heq⟩
    rw [Rsc.count_eq_beClasses hg hgr hrsc hs] at heq
    have hne : g.edges ≠ [] := fun hnil => by
      rw [count_of_nil hnil hmax hs'] at heq
      omega
    exact ⟨hne, (count_of_single ⟨hg.node_pos, hne, hg.ids, hgr⟩ hfit hlen hrbsc hs').1 heq.symm⟩
  · rintro ⟨hne, hno⟩
    obtain ⟨s, hs⟩ := Rsc.rsc_returns hg hgr hrsc
    obtain ⟨s', hs'⟩ := rbsc_single_returns cub (device_sums cub) extra dev hfit hg.node_pos hmax hone
    refine ⟨g.node_n + 1, s, s', hs, hs', ?_⟩
    rw [Rsc.count_eq_beClasses hg hgr hrsc hs]
    exact ((count_of_single ⟨hg.node_pos, hne, hg.ids, hgr⟩ hfit hlen hrbsc hs').2 hno).symm

theorem same_count_iff_edgeGraph :
    SameCount Rsc.StdSort.insertion Cub.reference rbsc_extra 1 Rsc.edgeGraph zeroDevice ↔
      Rsc.edgeGraph.edges ≠ [] ∧ ¬ ZeroBesideDangling Rsc.edgeGraph :=
  same_count_iff Rsc.StdSort.insertion Cub.reference rbsc_extra 1 Rsc.edgeGraph zeroDevice
    ⟨by decide, by decide, by decide, by decide⟩ (by decide) (by decide) le_rfl (by decide)
    Rsc.edgeGraph_collisionFree (collisionFreeRun_one _ _ _ _)

/-- Node `0` has one edge, of weight zero; node `1` has none. -/
def zeroGraph : Graph := ⟨2, [⟨0, 1, 0⟩]⟩

/-- Without weight there is nothing to collide. -/
theorem zeroGraph_collisionFree (h : Word → Word) (srt : Rsc.StdSort) :
    Rsc.CollisionFree h srt zeroGraph := by
  intro k s _ u v _ x
  have hzero : ∀ u v, edgeWeight zeroGraph.edges u v = 0 := fun u v => by
    rw [zeroGraph, edgeWeight_cons]
    simp
  simp [classWeight, weights, hzero]

/-- **The counts differ** on `zeroGraph`: `rsc` prints `1` and `rbsc`, with the flag set, `2`. -/
theorem zeroGraph_not_same_count : Rsc.Accepted zeroGraph ∧ Grouped zeroGraph.edges ∧
    Rsc.CollisionFree randomize Rsc.StdSort.insertion zeroGraph ∧
    CollisionFreeRun Cub.reference rbsc_extra 1 zeroGraph zeroDevice ∧
    (Rsc.rsc randomize Rsc.StdSort.insertion zeroGraph 3).map Rsc.State.new_node_n = some 1 ∧
    (rbsc Cub.reference (device_sums Cub.reference) rbsc_extra 1 zeroGraph zeroDevice 3).map
      (fun s => (s.new_node_n, done s)) = some (2, 1) ∧
    ¬ SameCount Rsc.StdSort.insertion Cub.reference rbsc_extra 1 zeroGraph zeroDevice := by
  have hg : Rsc.Accepted zeroGraph := ⟨by decide, by decide, by decide, by decide⟩
  have hcf : CollisionFreeRun Cub.reference rbsc_extra 1 zeroGraph zeroDevice :=
    collisionFreeRun_one _ _ _ _
  refine ⟨hg, by decide, zeroGraph_collisionFree _ _, hcf, by decide +kernel, by decide +kernel, ?_⟩
  rintro ⟨fuel, s, s', hs, hs', heq⟩
  have hrsc := Rsc.count_eq_beClasses hg (by decide) (zeroGraph_collisionFree _ _) hs
  refine (count_of_single (g := zeroGraph) ⟨by decide, by decide, by decide, by decide⟩ (by decide)
    le_rfl hcf hs').1 (heq.symm.trans hrsc) ⟨⟨1, by decide, by decide⟩, 0, by decide, by decide⟩

end Count

end Rbsc.Compare
