import Rbsc.Rsc.Bounds

/-!
# Ties of the comparator

The comparator of `std::sort` breaks a tie of the sums by the old labels, but `sum` opens a new
class only where the sums change.  So a round can join nodes again that were told apart, when their
sums collide.  `rsc` only refines exactly when it stays within its arrays and no round starts with
two nodes that are told apart, by their labels and by their weights, and are confused by the hash
(`onlyRefines_iff`), whatever values the mixing function has; with the real one there is a graph
with two such nodes, and the count falls (`tieGraph_not_onlyRefines`).
-/

namespace Rbsc.Rsc

open Arrays DenseRank Lumping DoWhile

/-- The state at the start of round `k` of the program with its array accesses. -/
abbrev Checked.AtRound (h : Word → Word) (srt : ComparisonSort.Sorter ℕ) (g : Graph) :
    ℕ → State → Prop :=
  Entered (Checked.round h srt g) again (init g)

/-- The loop only refines: every round returns, and keeps nodes with different labels apart, the
count never decreases from one round to the next, and the loop ends after at most `node_n + 1`
rounds. -/
structure OnlyRefines (h : Word → Word) (srt : ComparisonSort.Sorter ℕ) (g : Graph) : Prop where
  keeps_apart : ∀ k s, Checked.AtRound h srt g k s → ∃ s', Checked.round h srt g s = some s' ∧
    ∀ u < g.node_n, ∀ v < g.node_n, s.w u ≠ s.w v → s'.w u ≠ s'.w v
  count_mono : ∀ k s s', Checked.AtRound h srt g (k + 1) s → Checked.round h srt g s = some s' →
    s.new_node_n ≤ s'.new_node_n
  ends : ∃ s, doWhile (Checked.round h srt g) again (g.node_n + 1) (init g) = some s

/-- The weights between the nodes, of the edges that count. -/
def lastWeights (g : Graph) : Fin g.node_n → Fin g.node_n → ℕ :=
  weights (lastGroups g.edges g.edges.length) g.node_n

/-- Two nodes with different labels and different weights into some class, for which the mixed
labels of their targets have one weighed sum modulo `2 ^ 64`. -/
structure Confused (h : Word → Word) (g : Graph) (s : State) (u v : Fin g.node_n) : Prop where
  apart : s.w u ≠ s.w v
  weights : ¬ SameWeights (lastWeights g) (partition g s) u v
  collide : hashSum (lastGroups g.edges g.edges.length) (fun y => h (s.w y + s.it)) u =
    hashSum (lastGroups g.edges g.edges.length) (fun y => h (s.w y + s.it)) v

section

variable {h : Word → Word} {srt : StdSort} {g : Graph} {k : ℕ} {s : State}

theorem lastGroups_ids (hids : IdsBelow g.node_n g.edges) :
    IdsBelow g.node_n (lastGroups g.edges g.edges.length) := fun e he =>
  hids e (mem_lastGroups _ le_rfl he)

/-- Nodes with the same weights into every class of a round stay together. -/
theorem round_of_lastWeights (hn : g.node_n ≤ 2 ^ 31) (hids : IdsBelow g.node_n g.edges)
    (hs : AtRound h srt g k s) {u v : Fin g.node_n}
    (huv : SameWeights (lastWeights g) (partition g s) u v) : partition g (round h srt g s) u v := by
  rw [partition_round hn, sums_lastGroups hs, sums_lastGroups hs]
  refine hashSum_eq_of_sameWeights (lastGroups_ids hids) (fun y y' hy => ?_) huv
  rw [labelPartition_iff.1 hy]

/-- A round that starts with nodes told apart where their weights differ refines. -/
theorem refines_of_not_confused (hn : g.node_n ≤ 2 ^ 31) (hs : AtRound h srt g k s)
    (hno : ∀ u v, ¬ Confused h g s u v)
    (hle : refineStep (lastWeights g) (partition g s) ≤ partition g s) :
    partition g (round h srt g s) ≤ partition g s := by
  intro u v huv
  rw [partition_round hn, sums_lastGroups hs, sums_lastGroups hs] at huv
  by_contra hne
  have hw : SameWeights (lastWeights g) (partition g s) u v := by
    by_contra hw
    exact hno u v ⟨hne, hw, huv⟩
  exact hne (hle hw)

/-- Without confused nodes, different labels are different weights: the invariant of the rounds. -/
theorem le_of_not_confused (hn : g.node_n ≤ 2 ^ 31) (hids : IdsBelow g.node_n g.edges)
    (hno : ∀ k s, AtRound h srt g k s → ∀ u v, ¬ Confused h g s u v)
    (hs : AtRound h srt g k s) :
    refineStep (lastWeights g) (partition g s) ≤ partition g s := by
  induction hs with
  | start => rw [partition_init]; exact le_top
  | @next k s s' hs hb _ ih =>
    cases hb
    intro u v huv
    have hle := refines_of_not_confused hn hs (hno k s hs) ih
    exact round_of_lastWeights hn hids hs (SameWeights.mono huv hle)

end

section

variable {h : Word → Word} {srt : ComparisonSort.Sorter ℕ} {g : Graph}

/-- Within the arrays the program is the model. -/
theorem Checked.round_eq_model (hids : IdsBelow g.node_n g.edges) (hpos : 1 ≤ g.node_n)
    (hn : g.node_n ≤ 2 ^ 31) :
    Checked.round h srt g = fun s => some (Rsc.round h (toStdSort srt) g s) :=
  funext fun _ => Checked.round_eq hids hpos hn

/-- **When `rsc` only refines.**  For every graph and every mixing function: exactly when there are
`1` to `2 ^ 31` nodes and no round starts with nodes that are confused. -/
theorem onlyRefines_iff (h : Word → Word) (srt : ComparisonSort.Sorter ℕ) (g : Graph)
    (hids : IdsBelow g.node_n g.edges) (htotal : totalWeight g.edges ≤ 2 ^ 32 - 1) :
    OnlyRefines h srt g ↔ (1 ≤ g.node_n ∧ g.node_n ≤ 2 ^ 31) ∧
      ∀ k s, Checked.AtRound h srt g k s → ∀ u v, ¬ Confused h g s u v := by
  constructor
  · intro hr
    obtain ⟨s₁, hs₁, -⟩ := hr.keeps_apart 0 _ .start
    obtain ⟨hpos, hn⟩ := Checked.round_bounds hs₁
    refine ⟨⟨hpos, hn⟩, fun k s hs u v huv => ?_⟩
    obtain ⟨s', hs', hapart⟩ := hr.keeps_apart k s hs
    refine hapart u u.2 v v.2 huv.apart ?_
    rw [Checked.round_eq hids hpos hn] at hs'
    rw [Checked.AtRound, Checked.round_eq_model hids hpos hn] at hs
    cases hs'
    rw [round_w_eq_iff _ _ _ _ hn u.2 v.2, sums_lastGroups hs, sums_lastGroups hs]
    exact huv.collide
  · rintro ⟨⟨hpos, hn⟩, hno⟩
    have hmodel : Checked.round h srt g = _ := Checked.round_eq_model hids hpos hn
    have hg : Accepted g := ⟨hpos, hn, hids, htotal⟩
    have := nonempty_of_accepted hg
    rw [Checked.AtRound, hmodel] at hno
    have href : ∀ k s, AtRound h (toStdSort srt) g k s →
        partition g (round h (toStdSort srt) g s) ≤ partition g s := fun k s hs =>
      refines_of_not_confused hn hs (hno k s hs) (le_of_not_confused hn hids hno hs)
    have hloop := refineLoop_of_refines hg href
    refine ⟨fun k s hs => ?_, fun k s s' hs hs' => ?_, ?_⟩
    · rw [Checked.AtRound, hmodel] at hs
      refine ⟨_, Checked.round_eq hids hpos hn, fun u hu v hv hne heq => hne ?_⟩
      exact href k s hs (show partition g _ ⟨u, hu⟩ ⟨v, hv⟩ from heq)
    · rw [Checked.AtRound, hmodel] at hs
      rw [Checked.round_eq hids hpos hn] at hs'
      cases hs'
      rw [round_count hn hpos, hloop.counts_succ hs]
      exact classCount_mono (href _ s hs)
    · rw [hmodel]
      obtain ⟨s, hs⟩ := hloop.returns fun _ s _ => ⟨_, rfl⟩
      rw [Fintype.card_fin] at hs
      exact ⟨s, hs⟩

end

/-- A path of three nodes, which takes three rounds. -/
def pathGraph : Graph := ⟨3, [⟨0, 1, 1⟩, ⟨1, 2, 1⟩]⟩

theorem onlyRefines_iff_pathGraph : OnlyRefines randomize insertion pathGraph := by
  refine (onlyRefines_iff randomize insertion pathGraph (by decide) (by decide)).2
    ⟨by decide, fun k s hs u v huv => ?_⟩
  rw [Checked.AtRound, Checked.round_eq_model (by decide) (by decide) (by decide)] at hs
  -- in each of the three rounds, nodes with different labels have different sums
  have hapart : ∀ s : State, (∀ u v : Fin 3, s.w u ≠ s.w v →
      hashSum (lastGroups pathGraph.edges 2) (fun y => randomize (s.w y + s.it)) u ≠
        hashSum (lastGroups pathGraph.edges 2) (fun y => randomize (s.w y + s.it)) v) →
      ¬ Confused randomize pathGraph s u v := fun s h huv => h u v huv.apart huv.collide
  revert huv
  cases k with
  | zero =>
    cases hs
    exact hapart _ (by decide +kernel)
  | succ k =>
    obtain ⟨s₁, hb₁, -, hs₁⟩ := hs.cases_succ
    cases hb₁
    cases k with
    | zero =>
      cases hs₁
      exact hapart _ (by decide +kernel)
    | succ k =>
      obtain ⟨s₂, hb₂, -, hs₂⟩ := hs₁.cases_succ
      cases hb₂
      cases k with
      | zero =>
        cases hs₂
        exact hapart _ (by decide +kernel)
      | succ k =>
        obtain ⟨s₃, hb₃, ha₃, -⟩ := hs₂.cases_succ
        cases hb₃
        exact absurd ha₃ (by decide +kernel)

/-- Nodes `0` and `1` have no edges; nodes `2` and `3` are told apart by the first round, and their
sums in the second round are equal. -/
def tieGraph : Graph where
  node_n := 4
  edges := [⟨2, 0, 1778823⟩, ⟨3, 2, 4447351⟩, ⟨3, 3, 11827686⟩]

/-- The first round of `tieGraph`. -/
def tieState : State := round randomize (toStdSort insertion) tieGraph (init tieGraph)

/-- **A collision merges classes.**  On `tieGraph` the second round gives nodes `2` and `3`, which
have different labels, one label. -/
theorem tieGraph_not_onlyRefines :
    Accepted tieGraph ∧ ¬ OnlyRefines randomize insertion tieGraph := by
  refine ⟨⟨by decide, by decide, by decide, by decide⟩, fun hr => ?_⟩
  have hround : ∀ s, Checked.round randomize insertion tieGraph s =
      some (round randomize (toStdSort insertion) tieGraph s) := fun s =>
    Checked.round_eq (by decide) (by decide) (by decide)
  have hs : Checked.AtRound randomize insertion tieGraph 1 tieState :=
    .next .start (hround _) (by decide +kernel)
  have hne : tieState.w 2 ≠ tieState.w 3 := by decide +kernel
  have heq : (round randomize (toStdSort insertion) tieGraph tieState).w 2 =
      (round randomize (toStdSort insertion) tieGraph tieState).w 3 := by decide +kernel
  obtain ⟨s', hs', hapart⟩ := hr.keeps_apart 1 tieState hs
  cases (hround _).symm.trans hs'
  exact hapart 2 (by decide) 3 (by decide) hne heq

end Rbsc.Rsc
