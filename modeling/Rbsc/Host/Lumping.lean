import Rbsc.Host.OutDegree

/-!
# Runs without collisions

The composition of the labels of all rounds is a backward equivalence of the input
(`isLumping_of_kernelsFit`), and a run that ends with the flag set prints the exact count
(`rbsc_exact`).

* `Composition`: the composition of the labels of the rounds so far;
* `IsLumping`: it is a BE partition, and the edges are its quotient.
-/

namespace Rbsc.Host

open Arrays DoWhile Gpu Labelling Lumping DenseRank

/-- `q` is the composition of the labels of the first `k` rounds, which lead to `s`. -/
inductive Composition (cub : Cub) (extra : ℕ → ℕ → Bool) (max : ℕ) (g : Graph) (dev : Device) :
    ℕ → State → (ℕ → ℕ) → Prop
  | start : Composition cub extra max g dev 0 (init g dev) id
  | next {k fuel : ℕ} {s s' : State} {q : ℕ → ℕ} (h : Composition cub extra max g dev k s q)
      (hat : AtRound cub (device_sums cub) extra max g dev k s)
      (hr : round cub (device_sums cub) max fuel s = some s') :
      Composition cub extra max g dev (k + 1) s' fun v => s'.w (q v)

/-- The weight of the first edge with these ends, `0` if there is none. -/
def quotientWeight (edges : List Edge) (c d : ℕ) : ℕ :=
  ((edges.find? fun e => e.edge_start = c ∧ e.edge_end = d).map Edge.edge_weight).getD 0

/-- `q` is a backward equivalence of the input, and the edges of `s` are its quotient. -/
structure IsLumping (g : Graph) (s : State) (q : ℕ → ℕ) : Prop where
  /-- `q` maps the nodes of the input onto those of `s`. -/
  lt : ∀ v < g.node_n, q v < s.new_node_n
  onto : ∀ c < s.new_node_n, ∃ v < g.node_n, q v = c
  /-- Nodes that `q` puts together have the same total weight into every class. -/
  stable : Stable (weights g.edges g.node_n) (labelPartition g.node_n q)
  /-- No two edges have the same ends. -/
  nodup : (s.edges.map fun e => (e.edge_start, e.edge_end)).Nodup
  /-- Every node, kept or dropped, has the weight of the one edge from its class into a class. -/
  weight : ∀ v : Fin g.node_n, ∀ c < s.new_node_n,
    ∑ y ∈ Finset.univ.filter (fun y : Fin g.node_n => q y = c), weights g.edges g.node_n v y =
      quotientWeight s.edges (q v) c

/-- With distinct ends, the weight between two nodes is that of the one edge. -/
theorem edgeWeight_eq_quotientWeight {edges : List Edge}
    (h : (edges.map fun e => (e.edge_start, e.edge_end)).Nodup) (c d : ℕ) :
    edgeWeight edges c d = quotientWeight edges c d := by
  induction edges with
  | nil => rfl
  | cons e l ih =>
    rw [List.map_cons, List.nodup_cons] at h
    rw [edgeWeight_cons, quotientWeight, List.find?_cons]
    by_cases he : e.edge_start = c ∧ e.edge_end = d
    · -- no other edge has these ends
      have hzero : edgeWeight l c d = 0 := by
        have : (l.filter fun e => e.edge_start = c ∧ e.edge_end = d) = [] :=
          List.filter_eq_nil_iff.2 fun f hf hfb => h.1 (List.mem_map.2 ⟨f, hf, by
            have := of_decide_eq_true hfb
            rw [this.1, this.2, he.1, he.2]⟩)
        rw [edgeWeight, this]
        rfl
      simp [he, hzero]
    · have := ih h.2
      rw [quotientWeight] at this
      simp [he, this]

/-- What holds of the composition at the start of a round. -/
structure LumpInv (g : Graph) (s : State) (q : ℕ → ℕ) : Prop where
  pos : PosWeights s.edges
  total : totalWeight s.edges < 2 ^ 64
  lt : ∀ v < g.node_n, q v < s.new_node_n
  onto : Function.Surjective (labelMap q g.node_n s.new_node_n lt)
  quotient : IsQuotient (weights g.edges g.node_n) (labelMap q g.node_n s.new_node_n lt)
    (weights s.edges s.new_node_n)

section Runs

variable {cub : Cub} {extra : ℕ → ℕ → Bool} {max : ℕ} {g : Graph} {dev : Device} {fuel k : ℕ}
  {s s' : State} {q : ℕ → ℕ}

theorem LumpInv.init (hg : WeightedInput g) : LumpInv g (init g dev) id := by
  have hlt : ∀ v < g.node_n, id v < (Host.init g dev).new_node_n := fun v hv => hv
  exact ⟨hg.pos, hg.total, hlt, fun c => ⟨c, rfl⟩,
    isQuotient_of_equiv (Equiv.refl (Fin g.node_n)) fun _ _ => rfl⟩

/-- **A round with several batches keeps the composition a lumping.** -/
theorem LumpInv.step (h : LumpInv g s q) (hinv : RunInv g k s)
    (hfit : KernelsFit max s.new_node_n s.edges) (hmax : 1 ≤ max) (hcf : CollisionFreeRound cub max s)
    (hr : round cub (device_sums cub) max fuel s = some s') (hb : 1 < s'.batches) :
    LumpInv g s' (fun v => s'.w (q v)) ∧
      (s'.edges.map fun e => (e.edge_start, e.edge_end)).Nodup := by
  obtain ⟨-, hbat, hspec, hedges⟩ := hinv.round_spec hfit hmax hcf hr
  rw [hbat] at hb
  rw [if_pos hb] at hedges
  obtain ⟨hsurj, hquot⟩ := round_isQuotient hfit hinv.pos hinv.grouped hinv.ids h.total hmax hspec
  have hlt : ∀ v < g.node_n, s'.w (q v) < s'.new_node_n := fun v hv => hspec.lt _ (h.lt v hv)
  refine ⟨⟨?_, ?_, hlt, ?_, ?_⟩, ?_⟩
  · rw [hedges]; exact quotientEdges_pos h.pos h.total
  · rw [hedges]; exact (quotientEdges_total h.total).trans_lt h.total
  · exact hsurj.comp h.onto
  · rw [hedges]; exact h.quotient.comp hquot
  · rw [hedges]; exact quotientEdges_nodup

theorem AtRound.batches (hs : AtRound cub (device_sums cub) extra max g dev k s) :
    k = 0 ∨ 1 < s.batches := by
  obtain ⟨fuel, hs⟩ := hs
  cases hs with
  | start => exact Or.inl rfl
  | next _ _ ha => exact Or.inr (again_iff.1 ha).1

/-- The composition at the start of a round. -/
theorem Composition.lumpInv (hg : WeightedInput g) (hfit : KernelsFit max g.node_n g.edges)
    (hmax : 1 ≤ max) (hcf : CollisionFreeRun cub extra max g dev)
    (h : Composition cub extra max g dev k s q) (hs : k = 0 ∨ 1 < s.batches) : LumpInv g s q := by
  induction h with
  | start => exact LumpInv.init hg
  | @next k fuel s s' q h hat hr ih =>
    have hb : 1 < s'.batches := hs.resolve_left (by omega)
    obtain ⟨hinv, hfits⟩ := hat.inv_fits hg.toInput hfit hmax
    exact ((ih hat.batches).step hinv hfits hmax (hcf k s hat) hr hb).1

/-- Every round of a run has a composition. -/
theorem AtRound.exists_composition
    (hs : AtRound cub (device_sums cub) extra max g dev k s) :
    ∃ q, Composition cub extra max g dev k s q := by
  obtain ⟨fuel, hs⟩ := hs
  induction hs with
  | start => exact ⟨id, .start⟩
  | next hs hb _ ih =>
    obtain ⟨q, hq⟩ := ih
    exact ⟨_, .next hq ⟨fuel, hs⟩ hb⟩

/-- **Every round with several batches is a valid lumping.** -/
theorem isLumping_of_kernelsFit (hg : WeightedInput g) (hfit : KernelsFit max g.node_n g.edges)
    (hmax : 1 ≤ max) (hcf : CollisionFreeRun cub extra max g dev)
    (h : Composition cub extra max g dev k s q) (hb : 1 < s.batches) : IsLumping g s q := by
  cases h with
  | start => exact absurd hb (by simp [init])
  | @next k fuel s s' q h hat hr =>
    have hprev := h.lumpInv hg hfit hmax hcf hat.batches
    obtain ⟨hrun, hfits⟩ := hat.inv_fits hg.toInput hfit hmax
    obtain ⟨hinv, hnd⟩ := hprev.step hrun hfits hmax (hcf k s hat) hr hb
    refine ⟨hinv.lt, fun c hc => ?_, ?_, hnd, fun v c hc => ?_⟩
    · obtain ⟨v, hv⟩ := hinv.onto ⟨c, hc⟩
      exact ⟨v, v.2, congrArg Fin.val hv⟩
    · rw [← ker_labelMap hinv.lt]
      exact hinv.quotient.stable_ker
    · rw [← edgeWeight_eq_quotientWeight hnd]
      refine Eq.trans ?_ (hinv.quotient v ⟨c, hc⟩)
      refine Finset.sum_congr ?_ fun _ _ => rfl
      ext y
      simp only [Finset.mem_filter, Finset.mem_univ, true_and, labelMap, Fin.mk.injEq]

theorem LumpInv.beClasses_eq (h : LumpInv g s q) :
    beClasses g = classCount (coarsest (weights s.edges s.new_node_n) ⊤) :=
  h.quotient.classCount_coarsest h.onto

theorem LumpInv.beClasses_le (h : LumpInv g s q) : beClasses g ≤ s.new_node_n := by
  rw [h.beClasses_eq]
  exact classCount_le.trans (Fintype.card_fin _).le

/-- A round with one batch, anywhere in a run, gives the exact count. -/
theorem AtRound.exact (hg : WeightedInput g) (hfit : KernelsFit max g.node_n g.edges)
    (hmax : 1 ≤ max) (hcf : CollisionFreeRun cub extra max g dev)
    (hat : AtRound cub (device_sums cub) extra max g dev k s)
    (hr : round cub (device_sums cub) max fuel s = some s') (hone : s'.batches = 1) :
    s'.new_node_n = beClasses g := by
  obtain ⟨hinv, hfits⟩ := hat.inv_fits hg.toInput hfit hmax
  obtain ⟨q, hq⟩ := hat.exists_composition
  have hlump := hq.lumpInv hg hfit hmax hcf hat.batches
  obtain ⟨-, hbat, hspec, -⟩ := hinv.round_spec hfits hmax (hcf k s hat) hr
  rw [hlump.beClasses_eq]
  exact round_single hfits hinv.pos hinv.grouped hinv.ids hlump.pos hinv.nonempty
    (le_of_batch_count_eq_one hmax (hbat.symm.trans hone)) hspec

theorem count_of_done (hg : WeightedInput g) (hfit : KernelsFit max g.node_n g.edges)
    (hmax : 1 ≤ max) (hcf : CollisionFreeRun cub extra max g dev)
    (h : rbsc cub (device_sums cub) extra max g dev fuel = some s) (hdone : done s = 1) :
    s.new_node_n = beClasses g := by
  obtain ⟨k, -, s₀, hs, hr, -⟩ := doWhile_eq_some_iff.1 h
  have hone : s.batches = 1 := by
    by_contra hne
    simp [done, hne] at hdone
  exact AtRound.exact hg hfit hmax hcf ⟨fuel, hs⟩ hr hone

/-- **Exactness of a finished run.**  A run without collisions that ends with the flag set prints the
number of classes of the coarsest BE partition of the input, with any conjunct of the loop
condition. -/
theorem rbsc_exact (cub : Cub) (extra : ℕ → ℕ → Bool) (max : ℕ) (g : Graph) (dev : Device)
    (hg : WeightedInput g) (hmax : 1 ≤ max) (hfit : KernelsFit max g.node_n g.edges)
    (hcf : CollisionFreeRun cub extra max g dev) (fuel : ℕ) (s : State)
    (h : rbsc cub (device_sums cub) extra max g dev fuel = some s) (hdone : done s = 1) :
    s.new_node_n = beClasses g := count_of_done hg hfit hmax hcf h hdone

/-- Three nodes with an edge to a fourth: with batches of two edges there are two rounds. -/
def fanGraph : Graph := ⟨4, [⟨0, 3, 1⟩, ⟨1, 3, 1⟩, ⟨2, 3, 1⟩]⟩

theorem fanGraph_input : WeightedInput fanGraph where
  node_pos := by decide
  nonempty := by decide
  ids := by decide
  grouped := by decide
  pos := by decide
  total := by decide

/-- The last round starts with three nodes, as the first one has joined two. -/
theorem rbsc_exact_fanGraph : ∃ s, rbsc Cub.reference (device_sums Cub.reference) rbsc_extra 2
    fanGraph zeroDevice 3 = some s ∧ done s = 1 ∧ s.node_n = 3 ∧
      s.new_node_n = beClasses fanGraph := by
  have hsome : (rbsc Cub.reference (device_sums Cub.reference) rbsc_extra 2 fanGraph zeroDevice
      3).map (fun s => (done s, s.node_n)) = some (1, 3) := by decide +kernel
  obtain ⟨s, hs, hdone⟩ := Option.map_eq_some_iff.1 hsome
  obtain ⟨hdone, hnode⟩ := Prod.mk.inj hdone
  have hcf : CollisionFreeRun Cub.reference rbsc_extra 2 fanGraph zeroDevice :=
    collisionFreeRun_of_outDegree fanGraph_input.toInput (by decide) (by decide)
      ⟨by decide, by decide⟩
  exact ⟨s, hs, hdone, hnode, rbsc_exact Cub.reference rbsc_extra 2 fanGraph zeroDevice
    fanGraph_input (by decide) (by decide) hcf 3 s hs hdone⟩

/-- **Every round with several batches is a valid lumping**, and the printed count is never too
small. -/
theorem rbsc_lumping (cub : Cub) (extra : ℕ → ℕ → Bool) (max : ℕ) (g : Graph) (dev : Device)
    (hg : WeightedInput g) (hmax : 1 ≤ max) (hfit : KernelsFit max g.node_n g.edges)
    (hcf : CollisionFreeRun cub extra max g dev) :
    (∀ k s q, Composition cub extra max g dev k s q → 1 < s.batches →
      IsLumping g s q ∧ beClasses g ≤ s.new_node_n) ∧
    ∀ fuel s, rbsc cub (device_sums cub) extra max g dev fuel = some s →
      beClasses g ≤ s.new_node_n := by
  refine ⟨fun k s q h hb => ⟨isLumping_of_kernelsFit hg hfit hmax hcf h hb, ?_⟩, fun fuel s h => ?_⟩
  · exact (h.lumpInv hg hfit hmax hcf (Or.inr hb)).beClasses_le
  · obtain ⟨k, -, s₀, hs, hr, -⟩ := doWhile_eq_some_iff.1 h
    have hat : AtRound cub (device_sums cub) extra max g dev k s₀ := ⟨fuel, hs⟩
    obtain ⟨hinv, hfits⟩ := hat.inv_fits hg.toInput hfit hmax
    obtain ⟨q, hq⟩ := hat.exists_composition
    obtain ⟨-, hbat, -, -⟩ := hinv.round_spec hfits hmax (hcf k s₀ hat) hr
    have hpos := batch_count_pos hmax (List.length_pos_iff.2 hinv.nonempty)
    by_cases hb : 1 < s.batches
    · exact ((hq.next hat hr).lumpInv hg hfit hmax hcf (Or.inr hb)).beClasses_le
    · exact (AtRound.exact hg hfit hmax hcf hat hr (by omega)).ge

/-- Two nodes with an edge each, in batches of one edge. -/
def pairGraph : Graph := ⟨2, [⟨0, 0, 1⟩, ⟨1, 0, 1⟩]⟩

theorem pairGraph_input : WeightedInput pairGraph where
  node_pos := by decide
  nonempty := by decide
  ids := by decide
  grouped := by decide
  pos := by decide
  total := by decide

theorem rbsc_lumping_pairGraph :
    (∀ k s q, Composition Cub.reference rbsc_extra 1 pairGraph zeroDevice k s q → 1 < s.batches →
      IsLumping pairGraph s q ∧ beClasses pairGraph ≤ s.new_node_n) ∧
    ∀ fuel s, rbsc Cub.reference (device_sums Cub.reference) rbsc_extra 1 pairGraph zeroDevice fuel
      = some s → beClasses pairGraph ≤ s.new_node_n :=
  rbsc_lumping Cub.reference rbsc_extra 1 pairGraph zeroDevice pairGraph_input le_rfl (by decide)
    (collisionFreeRun_one _ _ _ _)

end Runs

end Rbsc.Host
