import Rbsc.Rsc.Round
import Rbsc.Lib.RefineLoop

/-!
# `rsc` computes the coarsest backward equivalence

The partition by the labels, over the rounds.  It never separates nodes that are equivalent in the
input (`coarsestBE_le_round`), whatever the mixing function.  When the sums do not collide it is
refined by every round, although the new labels are read off the sums alone, and the loop stops at
the coarsest BE partition (`rsc_exact`).
-/

namespace Rbsc.Rsc

open Arrays DenseRank Lumping DoWhile

variable {h : Word → Word} {srt : StdSort} {g : Graph}

/-- The partition of the nodes by the labels of a state. -/
abbrev partition (g : Graph) (s : State) : Setoid (Fin g.node_n) := labelPartition g.node_n s.w

/-- Two nodes with equal sums have the same weight into every class of the round. -/
def NoCollision (h : Word → Word) (g : Graph) (s : State) : Prop :=
  ∀ u v : Fin g.node_n, sums h g s u = sums h g s v →
    SameWeights (weights g.edges g.node_n) (partition g s) u v

/-- No round has a hash collision. -/
def CollisionFree (h : Word → Word) (srt : StdSort) (g : Graph) : Prop :=
  ∀ k s, AtRound h srt g k s → NoCollision h g s

/-! ## The sums of a round -/

/-- The entries of `z` that no edge writes keep their first value. -/
theorem z_eq_zero {k : ℕ} {s : State} (hs : AtRound h srt g k s) :
    ∀ v, ¬ IsSource g.edges v → s.z v = 0 := by
  induction hs with
  | start => exact fun _ _ => rfl
  | next _ hb _ ih =>
    cases hb
    intro v hv
    rw [round_z, spmv_lastGroups, if_neg hv, ih v hv]

/-- The sums of a round are those of the edges that count. -/
theorem sums_lastGroups {k : ℕ} {s : State} (hs : AtRound h srt g k s) (v : ℕ) :
    sums h g s v =
      hashSum (lastGroups g.edges g.edges.length) (fun y => h (s.w y + s.it)) v := by
  rw [sums, spmv_lastGroups]
  split_ifs with hv
  · rfl
  · have hno : ¬ IsSource (lastGroups g.edges g.edges.length) v := fun ⟨e, he, hes⟩ =>
      hv ⟨e, mem_lastGroups _ le_rfl he, hes⟩
    rw [z_eq_zero hs v hv, hashSum_eq_zero hno]

theorem sums_eq_hashSum (hgr : Grouped g.edges) {k : ℕ} {s : State} (hs : AtRound h srt g k s)
    (v : ℕ) : sums h g s v = hashSum g.edges (fun y => h (s.w y + s.it)) v := by
  rw [sums_lastGroups hs, lastGroups_of_grouped _ hgr _ le_rfl, List.take_length]

theorem partition_init : partition g (init g) = ⊤ := by
  ext u v
  simp only [labelPartition_iff, init, fill_of_lt _ _ u.2, fill_of_lt _ _ v.2, Setoid.top_def]
  simp

theorem partition_round (hn : g.node_n ≤ 2 ^ 31) (s : State) {u v : Fin g.node_n} :
    partition g (round h srt g s) u v ↔ sums h g s u = sums h g s v :=
  round_w_eq_iff h srt g s hn u.2 v.2

/-- Nodes with the same weight into every class of a round stay together. -/
theorem round_of_sameWeights (hn : g.node_n ≤ 2 ^ 31) (hids : IdsBelow g.node_n g.edges)
    (hgr : Grouped g.edges) {k : ℕ} {s : State} (hs : AtRound h srt g k s) {u v : Fin g.node_n}
    (huv : SameWeights (weights g.edges g.node_n) (partition g s) u v) :
    partition g (round h srt g s) u v := by
  rw [partition_round hn, sums_eq_hashSum hgr hs, sums_eq_hashSum hgr hs]
  refine hashSum_eq_of_sameWeights hids (fun y y' hy => ?_) huv
  rw [labelPartition_iff.1 hy]

/-- **Equivalent nodes are never separated**: the invariant of the rounds, with no assumption on
the mixing function. -/
theorem coarsestBE_le_partition (hn : g.node_n ≤ 2 ^ 31) (hids : IdsBelow g.node_n g.edges)
    (hgr : Grouped g.edges) {k : ℕ} {s : State} (hs : AtRound h srt g k s) :
    coarsestBE g ≤ partition g s := by
  induction hs with
  | start => rw [partition_init]; exact le_top
  | next hs hb _ ih =>
    cases hb
    intro u v huv
    exact round_of_sameWeights hn hids hgr hs ((coarsest_stable _ _ u v huv).mono ih)

theorem coarsestBE_le_round (hn : g.node_n ≤ 2 ^ 31) (hids : IdsBelow g.node_n g.edges)
    (hgr : Grouped g.edges) {k : ℕ} {s : State} (hs : AtRound h srt g k s) :
    coarsestBE g ≤ partition g (round h srt g s) := fun u v huv =>
  round_of_sameWeights hn hids hgr hs
    ((coarsest_stable _ _ u v huv).mono (coarsestBE_le_partition hn hids hgr hs))

/-! ## The loop -/

theorem again_eq_false {s : State} : again s = false ↔ s.node_n = s.new_node_n := by
  simp [again]

theorem round_count (hn : g.node_n ≤ 2 ^ 31) (hpos : 1 ≤ g.node_n) (s : State) :
    (round h srt g s).new_node_n = classCount (partition g (round h srt g s)) := by
  rw [round_new_node_n h srt g s hn hpos, ← classCount_labelPartition]
  congr 1
  ext u v
  rw [partition_round hn, labelPartition_iff, wordKey, wordKey, BitVec.toNat_inj]

/-- A loop every round of which refines the partition is a refinement loop. -/
theorem refineLoop_of_refines (hg : Accepted g)
    (href : ∀ k s, AtRound h srt g k s → partition g (round h srt g s) ≤ partition g s) :
    RefineLoop (fun s => some (round h srt g s)) again (init g) (partition g) State.node_n
      State.new_node_n where
  again_iff s := by simp [again]
  keeps _ s s' _ hb := by cases hb; rfl
  counts _ s s' _ hb := by cases hb; exact round_count hg.node_le hg.node_pos s
  refines k s s' hs hb := by cases hb; exact href k s hs

theorem nonempty_of_accepted (hg : Accepted g) : Nonempty (Fin g.node_n) := ⟨⟨0, hg.node_pos⟩⟩

/-- After rounds without collisions, nodes with the same weights have the same label already. -/
theorem le_of_noCollision (hg : Accepted g) (hgr : Grouped g.edges) {k : ℕ} {s : State}
    (hs : AtRound h srt g k s) (hno : ∀ j < k, ∀ s, AtRound h srt g j s → NoCollision h g s) :
    refineStep (weights g.edges g.node_n) (partition g s) ≤ partition g s := by
  induction hs with
  | start => rw [partition_init]; exact le_top
  | @next k s s' hs hb _ ih =>
    cases hb
    intro u v huv
    -- the partition of the round is by the weights into the classes before it
    have hle : partition g (round h srt g s) ≤ partition g s := fun x y hxy =>
      ih (fun j hj => hno j (by omega))
        (hno k (by omega) s hs x y ((partition_round hg.node_le _).1 hxy))
    exact round_of_sameWeights hg.node_le hg.ids hgr hs (SameWeights.mono huv hle)

theorem refines_of_noCollision (hg : Accepted g) (hgr : Grouped g.edges) {k : ℕ} {s : State}
    (hs : AtRound h srt g k s) (hno : ∀ j ≤ k, ∀ s, AtRound h srt g j s → NoCollision h g s) :
    partition g (round h srt g s) ≤ partition g s := fun u v huv =>
  le_of_noCollision hg hgr hs (fun j hj => hno j hj.le)
    (hno k le_rfl s hs u v ((partition_round hg.node_le s).1 huv))

theorem refines_of_collisionFree (hg : Accepted g) (hgr : Grouped g.edges)
    (hcf : CollisionFree h srt g) {k : ℕ} {s : State} (hs : AtRound h srt g k s) :
    partition g (round h srt g s) ≤ partition g s :=
  refines_of_noCollision hg hgr hs fun j _ => hcf j

/-- **The first rounds decide**: without collisions in the first `node_n + 1` rounds there are no
later ones. -/
theorem collisionFree_of_early (hg : Accepted g) (hgr : Grouped g.edges)
    (hno : ∀ k ≤ g.node_n, ∀ s, AtRound h srt g k s → NoCollision h g s) :
    CollisionFree h srt g := by
  have := nonempty_of_accepted hg
  have hloop : RefineLoop (fun s => some (round h srt g s)) again (init g) (partition g)
      State.node_n State.new_node_n := by
    refine RefineLoop.of_early (fun s => by simp [again]) (fun k s s' _ hb => ?_)
      (fun k s s' _ hb => ?_) fun k hk s s' hs hb => ?_
    · cases hb
      rfl
    · cases hb
      exact round_count hg.node_le hg.node_pos s
    · cases hb
      rw [Fintype.card_fin] at hk
      exact refines_of_noCollision hg hgr hs fun j hj => hno j (hj.trans hk)
  intro k s hs
  have hk := hloop.entered_le hs
  rw [Fintype.card_fin] at hk
  exact hno k hk s hs

/-- The partition that the loop stops at is the coarsest BE partition. -/
theorem partition_eq_coarsestBE (hg : Accepted g) (hgr : Grouped g.edges)
    (hcf : CollisionFree h srt g) {k : ℕ} {s : State} (hs : AtRound h srt g k s)
    (ha : again (round h srt g s) = false) : partition g (round h srt g s) = coarsestBE g := by
  have := nonempty_of_accepted hg
  have hle := coarsestBE_le_round hg.node_le hg.ids hgr hs
  have hloop := refineLoop_of_refines hg fun _ _ => refines_of_collisionFree hg hgr hcf
  refine le_antisymm ?_ hle
  cases k with
  | zero =>
    -- the count after the first round is `node_n`: all nodes are apart
    cases hs
    have hcount : (round h srt g (init g)).new_node_n = g.node_n := (again_eq_false.1 ha).symm
    rw [round_count hg.node_le hg.node_pos] at hcount
    have hbot : (⊥ : Setoid (Fin g.node_n)) = partition g (round h srt g (init g)) := by
      apply eq_of_le_of_classCount_le bot_le
      rw [hcount]
      exact classCount_le.trans (Fintype.card_fin _).le
    rw [← hbot]
    exact bot_le
  | succ k =>
    have heq := hloop.partition_eq hs rfl ha
    refine le_coarsest le_top fun u v huv => ?_
    rw [heq]
    exact hcf _ _ hs u v ((partition_round hg.node_le s).1 huv)

/-- The loop ends after at most `node_n + 1` rounds. -/
theorem rsc_returns (hg : Accepted g) (hgr : Grouped g.edges) (hcf : CollisionFree h srt g) :
    ∃ s, rsc h srt g (g.node_n + 1) = some s := by
  have := nonempty_of_accepted hg
  have hloop := refineLoop_of_refines hg fun _ _ => refines_of_collisionFree hg hgr hcf
  obtain ⟨s, hs⟩ := hloop.returns fun _ s _ => ⟨_, rfl⟩
  rw [Fintype.card_fin] at hs
  exact ⟨s, hs⟩

/-- The count that the loop ends with is exact. -/
theorem count_eq_beClasses (hg : Accepted g) (hgr : Grouped g.edges) (hcf : CollisionFree h srt g)
    {fuel : ℕ} {s : State} (hs : rsc h srt g fuel = some s) : s.new_node_n = beClasses g := by
  obtain ⟨k, -, s₀, hs₀, hb, ha⟩ := doWhile_eq_some_iff.1 hs
  cases hb
  rw [round_count hg.node_le hg.node_pos, partition_eq_coarsestBE hg hgr hcf hs₀ ha, beClasses]

/-- **Exactness of `rsc`.**  If no round has a hash collision, the loop ends after at most
`node_n + 1` rounds and prints the number of classes of the coarsest BE partition. -/
theorem rsc_exact (h : Word → Word) (srt : StdSort) (g : Graph) (hg : Accepted g)
    (hgr : Grouped g.edges) (hcf : CollisionFree h srt g) :
    ∃ s, rsc h srt g (g.node_n + 1) = some s ∧ s.new_node_n = beClasses g := by
  obtain ⟨s, hs⟩ := rsc_returns hg hgr hcf
  exact ⟨s, hs, count_eq_beClasses hg hgr hcf hs⟩

/-- When the first round tells all nodes apart and is the last one, no sums collide. -/
theorem collisionFree_of_apart {g : Graph}
    (hstop : again (round h srt g (init g)) = false)
    (hapart : ∀ u v : Fin g.node_n, sums h g (init g) u = sums h g (init g) v → u = v) :
    CollisionFree h srt g := by
  intro k s hs u v huv
  cases k with
  | zero =>
    cases hs
    have heq : u = v := hapart u v huv
    rw [heq]
    exact SameWeights.refl v
  | succ k =>
    obtain ⟨s₁, hb, ha, -⟩ := hs.cases_succ
    cases hb
    rw [hstop] at ha
    cases ha

/-- One edge between two nodes: the first round tells them apart. -/
def edgeGraph : Graph := ⟨2, [⟨0, 1, 1⟩]⟩

theorem edgeGraph_collisionFree : CollisionFree randomize StdSort.insertion edgeGraph := by
  have hapart : ∀ u v : Fin 2, sums randomize edgeGraph (init edgeGraph) u =
      sums randomize edgeGraph (init edgeGraph) v → u = v := by decide +kernel
  exact collisionFree_of_apart (by decide +kernel) hapart

theorem rsc_exact_edgeGraph : ∃ s, rsc randomize StdSort.insertion edgeGraph 3 = some s ∧
    s.new_node_n = beClasses edgeGraph :=
  rsc_exact randomize StdSort.insertion edgeGraph ⟨by decide, by decide, by decide, by decide⟩
    (by decide) edgeGraph_collisionFree

end Rbsc.Rsc
