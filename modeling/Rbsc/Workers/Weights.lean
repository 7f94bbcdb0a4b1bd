import Rbsc.Workers.Progress
import Rbsc.Stdin.GraphFile

/-!
# The weights of the edges

`rbsc` reads weights of 64 bits and adds up those of merged edges without a check.  A class keeps the
edges of one of its nodes, so that no total out of a node of a quotient is larger than all totals out
of the nodes of the input: the weights of every round are exact when these are below `2 ^ 64`
(`weights_exact_iff`), whatever the workers do.
-/

namespace Rbsc.Workers

open Arrays Gpu Host Interleave Stdin

section Run

variable {max_gpus : ℕ} {cub : Cub} {sums : SumsOf} {Q : ℕ → Device → Prop} {extra : ℕ → ℕ → Bool}
  {max : ℕ} {g : Graph} {dev : Fin max_gpus → Device} {k : ℕ} {s s' : State max_gpus}

theorem Round.edges_eq (h : Round cub sums Q max s s') (hgr : Grouped s.edges) :
    s'.edges = if 1 < s'.batches then quotientEdges s'.w s.edges else s.edges := by
  obtain ⟨cfg, -, -, rfl⟩ := h
  unfold after_region
  dsimp only
  by_cases hb : 1 < batch_count s.edges.length max
  · rw [if_pos hb, if_pos hb]
    exact compact_eq _ _ hgr
  · rw [if_neg hb, if_neg hb]

/-- Grouped edges with small totals. -/
structure SmallTotals (edges : List Edge) : Prop where
  grouped : Grouped edges
  out : ∀ u, outWeight edges u < 2 ^ 64

/-- **One round** keeps the totals small. -/
theorem SmallTotals.round (h : SmallTotals s.edges) (hr : Round cub sums Q max s s') :
    SmallTotals s'.edges := by
  rw [hr.edges_eq h.grouped]
  split_ifs
  · exact ⟨quotientEdges_grouped h.grouped, quotientEdges_out h.out⟩
  · exact h

end Run

end Rbsc.Workers
