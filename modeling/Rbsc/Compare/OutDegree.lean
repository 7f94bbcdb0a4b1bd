import Rbsc.Rsc.Exact
import Rbsc.Host.Lumping

/-!
# Graphs of out-degree one

`randomize` mixes no label of a run to `0`, the sum of a node without edges; so on a graph with at
most one edge a node and weights `1` no round of `rsc` has a collision, nor has a pass of `rbsc`.
Both programs are exact on these graphs without any assumption on the hashes (`outDegree_exact`).
-/

namespace Rbsc.Rsc

open Arrays DenseRank DoWhile Lumping

variable {srt : StdSort} {g : Graph} {k : ℕ} {s : State}

theorem AtRound.it {h : Word → Word} (hs : AtRound h srt g k s) : s.it = (k : Word) := by
  induction hs with
  | start => rfl
  | next _ hb _ ih =>
    cases hb
    rw [round_it, ih]
    push_cast
    rfl

/-- The labels have 32 bits. -/
theorem AtRound.label_lt {h : Word → Word} (hn : g.node_n ≤ 2 ^ 31) (hs : AtRound h srt g k s)
    {v : ℕ} (hv : v < g.node_n) : (s.w v).toNat < 2 ^ 32 := by
  cases hs with
  | start =>
    change (fill g.node_n (fun _ => 1) (.const 0) v : Word).toNat < _
    rw [fill_of_lt _ _ hv]
    decide
  | @next k s _ _ hb _ =>
    cases hb
    have hlt : rank (wordKey (sums h g s)) g.node_n v < _ := rank_lt_keyCount hv
    have hle : keyCount (wordKey (sums h g s)) g.node_n ≤ g.node_n := keyCount_le
    rw [round_w h srt g s hn hv, BitVec.natCast_eq_ofNat, BitVec.toNat_ofNat,
      Nat.mod_eq_of_lt (by omega)]
    omega

/-- **No label of a round is mixed to `0`.** -/
theorem AtRound.randomize_ne_zero (hn : g.node_n ≤ 2 ^ 31) (hs : AtRound randomize srt g k s)
    (hk : k ≤ g.node_n) {v : ℕ} (hv : v < g.node_n) : randomize (s.w v + s.it) ≠ 0 := by
  apply Rbsc.randomize_ne_zero
  have hlabel := hs.label_lt hn hv
  have hit : s.it.toNat = k := by
    rw [hs.it, BitVec.natCast_eq_ofNat, BitVec.toNat_ofNat, Nat.mod_eq_of_lt (by omega)]
  have hadd : (s.w v + s.it).toNat ≤ (s.w v).toNat + s.it.toNat := by
    rw [BitVec.toNat_add]
    exact Nat.mod_le _ _
  omega

/-- **A round without collisions.**  Equal sums are both the mixed labels of targets, or both `0`. -/
theorem noCollision_of_outDegree (hg : Accepted g) (hu : UnitOutDegree g.edges)
    (hs : AtRound randomize srt g k s) (hk : k ≤ g.node_n) : NoCollision randomize g s := by
  -- a source has the sum of its target, which is not `0`
  have hsum : ∀ e ∈ g.edges, sums randomize g s e.edge_start = randomize (s.w e.edge_end + s.it) ∧
      sums randomize g s e.edge_start ≠ 0 := fun e he => by
    rw [sums_eq_hashSum hu.grouped hs, hu.hashSum_eq he]
    exact ⟨rfl, hs.randomize_ne_zero hg.node_le hk (hg.ids e he).2⟩
  have hzero : ∀ x, ¬ IsSource g.edges x → sums randomize g s x = 0 := fun x hx => by
    rw [sums_eq_hashSum hu.grouped hs, hashSum_eq_zero hx]
  intro u v huv
  by_cases hsu : IsSource g.edges u
  · obtain ⟨e, he, heu⟩ := hsu
    rw [← heu] at huv
    by_cases hsv : IsSource g.edges v
    · obtain ⟨f, hf, hfv⟩ := hsv
      rw [← hfv, (hsum e he).1, (hsum f hf).1] at huv
      exact hu.sameWeights (x := ⟨e.edge_end, (hg.ids e he).2⟩)
        (y := ⟨f.edge_end, (hg.ids f hf).2⟩) he hf heu rfl hfv rfl
        (randomize_add_injective s.it huv)
    · rw [hzero v hsv] at huv
      exact absurd huv (hsum e he).2
  · by_cases hsv : IsSource g.edges v
    · obtain ⟨f, hf, hfv⟩ := hsv
      rw [← hfv, hzero u hsu] at huv
      exact absurd huv.symm (hsum f hf).2
    · intro x
      simp [classWeight, weights, edgeWeight_eq_zero hsu, edgeWeight_eq_zero hsv]

theorem collisionFree_of_outDegree (srt : StdSort) (hg : Accepted g)
    (hu : UnitOutDegree g.edges) : CollisionFree randomize srt g :=
  collisionFree_of_early hg hu.grouped fun _ hk _ hs => noCollision_of_outDegree hg hu hs hk

end Rbsc.Rsc

namespace Rbsc.Compare

open Gpu Host

/-- **Exactness on graphs of out-degree one**, with the real mixing function: `rsc` ends with the
number of classes of the coarsest BE partition, and so does `rbsc` when it ends with the flag set. -/
theorem outDegree_exact (srt : Rsc.StdSort) (cub : Cub) (extra : ℕ → ℕ → Bool) (max : ℕ) (g : Graph)
    (dev : Device) (hpos : 1 ≤ g.node_n) (hn : g.node_n < 2 ^ 31) (hids : IdsBelow g.node_n g.edges)
    (hu : UnitOutDegree g.edges) :
    (∃ s, Rsc.rsc randomize srt g (g.node_n + 1) = some s ∧ s.new_node_n = beClasses g) ∧
      (g.edges ≠ [] → 1 ≤ max → ∀ fuel s,
        rbsc cub (device_sums cub) extra max g dev fuel = some s → done s = 1 →
          s.new_node_n = beClasses g) := by
  have hlen := hu.length_le hids
  have htotal := hu.total
  constructor
  · have hg : Rsc.Accepted g := ⟨hpos, hn.le, hids, by omega⟩
    have hcf := Rsc.collisionFree_of_outDegree srt hg hu
    obtain ⟨s, hs⟩ := Rsc.rsc_returns hg hu.grouped hcf
    exact ⟨s, hs, Rsc.count_eq_beClasses hg hu.grouped hcf hs⟩
  · intro hne hmax fuel s hs hd
    have hg : WeightedInput g := by
      refine ⟨⟨hpos, hne, hids, hu.grouped⟩, fun e he => ?_, by omega⟩
      rw [hu.unit e he]
      exact Nat.one_pos
    have hgrid : GridFits g.node_n := by
      unfold GridFits THREAD_N
      omega
    have hfit : KernelsFit max g.node_n g.edges := Or.inl hgrid
    exact count_of_done hg hfit hmax (collisionFreeRun_of_outDegree hg.toInput hfit hmax hu) hs hd

theorem outDegree_exact_pairGraph :
    (∃ s, Rsc.rsc randomize Rsc.StdSort.insertion pairGraph 3 = some s ∧
        s.new_node_n = beClasses pairGraph) ∧
      ∀ fuel s, rbsc Cub.reference (device_sums Cub.reference) rbsc_extra 2 pairGraph zeroDevice
        fuel = some s → done s = 1 → s.new_node_n = beClasses pairGraph := by
  have h := outDegree_exact Rsc.StdSort.insertion Cub.reference rbsc_extra 2 pairGraph zeroDevice
    (by decide) (by decide) (by decide) ⟨by decide, by decide⟩
  exact ⟨h.1, h.2 (by decide) (by decide)⟩

end Rbsc.Compare
