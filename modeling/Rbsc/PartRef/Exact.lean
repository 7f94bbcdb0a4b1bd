import Rbsc.PartRef.Initial
import Rbsc.PartRef.Markov
import Rbsc.Lib.Splitter

/-!
# `part_ref` computes the coarsest partition

For an input without labelled transitions and with one initial block, the main loop ends and
`B.nr_sets` is the number of classes of the coarsest partition that is stable for the weights
(`minimize_exact`).  The block numbers are the splitters that `Rbsc.Lib.Splitter` is about: every
round of `markov_split` is a round there, and which part of a divided block keeps the number does
not matter.
-/

namespace Rbsc.PartRef

open Arrays ForLoop DoWhile Lumping RefinablePartition

variable {n : ℕ} {i : Input} {m : MDP}

/-! ## Weights -/

/-- `W`: the total weight of the transitions from state `u + 1` to state `v + 1`. -/
def MDP.W (m : MDP) (n : ℕ) (u v : Fin n) : ℤ :=
  ((m.w_trans.filter fun t => t.tail = (u : ℕ) + 1 ∧ t.head = (v : ℕ) + 1).map
    WTransition.weight).sum

/-- The blocks of the states. -/
def blockOf (n : ℕ) (B : RefinablePartition) (u : Fin n) : ℕ := B.sets (u + 1)

theorem num_state (u : Fin n) : Num n (u + 1) := ⟨by omega, u.2⟩

theorem exists_state {st : ℕ} (h : Num n st) : ∃ u : Fin n, (u : ℕ) + 1 = st :=
  ⟨⟨st - 1, by unfold Num at h; omega⟩, by unfold Num at h; show st - 1 + 1 = st; omega⟩

theorem map_fromOne {α : Type*} [Inhabited α] (l : List α) :
    (List.Ico 1 (l.length + 1)).map (fromOne l) = l := by
  refine List.ext_getElem (by simp) fun k h₁ h₂ => ?_
  simp [fromOne, List.Ico, Nat.add_comm 1 k, h₂]

/-- The weight into a block, from the list of the transitions. -/
theorem weightTo_eq {B : RefinablePartition} {b : ℕ} (h : Ok n B) (hi : InputOk n i)
    (hb : Num B.nr_sets b) (u : ℕ) :
    weightTo i B b u = ((i.m.w_trans.filter fun t => B.sets t.head = b ∧ t.tail = u).map
      WTransition.weight).sum := by
  have hperm : (inTransitions i B b).Perm
      ((List.Ico 1 (i.m.nr_w_trans + 1)).filter fun tr => B.sets (i.m.w_heads tr) = b) := by
    rw [List.perm_ext_iff_of_nodup (nodup_inTransitions h hi hb)
      ((List.Ico.nodup _ _).filter _)]
    intro tr
    rw [mem_inTransitions h hi hb, List.mem_filter, List.Ico.mem, decide_eq_true_eq]
    exact and_congr_left fun _ => by unfold Num; omega
  unfold weightTo
  rw [sumFrom_perm hperm, sumFrom, List.filter_filter]
  conv_rhs => rw [← map_fromOne i.m.w_trans]
  rw [List.filter_map, List.map_map]
  congr 2
  refine List.filter_congr fun tr _ => ?_
  rw [Function.comp_apply, Bool.decide_and, Bool.and_comm]
  rfl

/-- A total over transitions, by their heads. -/
theorem sum_filter_heads {l : List WTransition} (hl : ∀ t ∈ l, Num n t.head) (p : ℕ → Prop)
    [DecidablePred p] (u : ℕ) :
    ((l.filter fun t => p t.head ∧ t.tail = u).map WTransition.weight).sum =
      ∑ y ∈ Finset.univ.filter fun y : Fin n => p (y + 1),
        ((l.filter fun t => t.tail = u ∧ t.head = (y : ℕ) + 1).map WTransition.weight).sum := by
  induction l with
  | nil => simp
  | cons t l ih =>
    have ih := ih fun t' ht' => hl t' (List.mem_cons_of_mem _ ht')
    have hcons : ∀ q : WTransition → Prop, ∀ [DecidablePred q],
        (((t :: l).filter fun t => q t).map WTransition.weight).sum =
          (if q t then t.weight else 0) +
            ((l.filter fun t => q t).map WTransition.weight).sum := by
      intro q _
      by_cases hq : q t <;> simp [hq]
    rw [hcons fun t => p t.head ∧ t.tail = u, ih]
    simp only [hcons, Finset.sum_add_distrib]
    congr 1
    -- only the head of the first transition counts
    obtain ⟨y, hy⟩ := exists_state (hl t (List.mem_cons_self ..))
    rw [Finset.sum_filter, Finset.sum_eq_single y]
    · rw [hy]
      by_cases hp : p t.head <;> simp [hp]
    · intro z _ hz
      have hne : t.head ≠ (z : ℕ) + 1 := fun heq => hz (Fin.ext (by omega))
      simp [hne]
    · simp

theorem weightTo_eq_weightInto {B : RefinablePartition} {b : ℕ} (h : Ok n B) (hi : InputOk n i)
    (hheads : ∀ t ∈ i.m.w_trans, Num n t.head) (hb : Num B.nr_sets b) (u : Fin n) :
    weightTo i B b (u + 1) = Splitter.weightInto (i.m.W n) (Splitter.block (blockOf n B) b) u := by
  classical
  rw [weightTo_eq h hi hb, sum_filter_heads hheads (fun st => B.sets st = b)]
  unfold Splitter.weightInto
  refine Finset.sum_congr ?_ fun y _ => rfl
  ext y
  simp [blockOf]

/-- The blocks are the classes of the partition that they make. -/
theorem classCount_blockOf {B : RefinablePartition} (h : Ok n B) :
    classCount (Setoid.ker (blockOf n B)) = B.nr_sets := by
  have hrange : Set.range (blockOf n B) = ↑(Finset.Icc 1 B.nr_sets) := by
    ext c
    rw [Finset.mem_coe, Finset.mem_Icc]
    constructor
    · rintro ⟨u, rfl⟩
      exact h.set _ (num_state u)
    · intro hc
      obtain ⟨st, hst, hset⟩ := h.exists_mem hc
      obtain ⟨u, rfl⟩ := exists_state hst
      exact ⟨u, hset⟩
  unfold classCount
  rw [Nat.card_congr (Setoid.quotientKerEquivRange _), Nat.card_coe_set_eq, hrange,
    Set.ncard_coe_finset, Nat.card_Icc, Nat.add_sub_cancel]

/-! ## The splitters in turn -/

/-- The invariant of the loop of `markov_split`. -/
structure LoopInv (n : ℕ) (i : Input) (s : State) : Prop where
  ready : Ready n s
  pos : 1 ≤ s.markov_splitter
  pending : Splitter.Pending (i.m.W n) (blockOf n s.B) s.markov_splitter
  coarsest_le : coarsest (i.m.W n) ⊤ ≤ Setoid.ker (blockOf n s.B)

variable {s : State}

/-- One splitter of the program is one round of the abstract refinement. -/
theorem markov_step_round (hi : InputOk n i) (hfit : SumsFit i.m)
    (hheads : ∀ t ∈ i.m.w_trans, Num n t.head) (h : Ready n s)
    (hb : Num s.B.nr_sets s.markov_splitter) :
    Splitter.Round (i.m.W n) s.B.nr_sets s.markov_splitter (blockOf n s.B)
      (blockOf n (markov_step i s).B) := by
  obtain ⟨-, hdiv⟩ := markov_step_divides hi hfit h hb
  constructor
  · intro u v
    rw [← weightTo_eq_weightInto h.ok hi hheads hb, ← weightTo_eq_weightInto h.ok hi hheads hb]
    have := hdiv.together (u + 1) (v + 1) (num_state u) (num_state v)
    simpa [blockOf] using this
  · exact fun u => hdiv.fresh (u + 1) (num_state u)

theorem LoopInv.next (hi : InputOk n i) (hfit : SumsFit i.m)
    (hheads : ∀ t ∈ i.m.w_trans, Num n t.head) (h : LoopInv n i s)
    (hle : s.markov_splitter ≤ s.B.nr_sets) : LoopInv n i (markov_step i s) := by
  have hb : Num s.B.nr_sets s.markov_splitter := ⟨h.pos, hle⟩
  have hround := markov_step_round hi hfit hheads h.ready hb
  exact ⟨(markov_step_divides hi hfit h.ready hb).1, Nat.le_succ_of_le h.pos,
    Splitter.Pending.next hround hle h.pending, hround.coarsest_le h.coarsest_le⟩

/-- **The loop of `markov_split` ends** after at most `n` splitters, with none pending.  What its
turns keep holds at the end. -/
theorem markov_loop_returns {I : State → Prop} (hready : ∀ t, I t → Ready n t)
    (hnext : ∀ t, I t → t.markov_splitter ≤ t.B.nr_sets → I (markov_step i t)) (h : I s)
    (hpos : 1 ≤ s.markov_splitter) {fuel : ℕ} (hfuel : n ≤ fuel) :
    ∃ s', whileDo (fun s => some (markov_step i s))
        (fun s => s.markov_splitter ≤ s.B.nr_sets) fuel s = some s' ∧ I s' ∧
      s'.B.nr_sets < s'.markov_splitter ∧ s'.T = s.T ∧ s'.cord_splitter = s.cord_splitter ∧
        s'.bisim_splitter = s.bisim_splitter := by
  have hstep : ∀ t, (I t ∧ t.T = s.T ∧ t.cord_splitter = s.cord_splitter ∧
      t.bisim_splitter = s.bisim_splitter) → decide (t.markov_splitter ≤ t.B.nr_sets) = true →
      ∃ t', some (markov_step i t) = some t' ∧
        (I t' ∧ t'.T = s.T ∧ t'.cord_splitter = s.cord_splitter ∧
          t'.bisim_splitter = s.bisim_splitter) ∧
        n + 1 - t'.markov_splitter < n + 1 - t.markov_splitter := by
    rintro t ⟨ht, hrest⟩ ha
    have hle : t.markov_splitter ≤ t.B.nr_sets := of_decide_eq_true ha
    refine ⟨_, rfl, ⟨hnext t ht hle, hrest⟩, ?_⟩
    have := (hready t ht).ok.nr_sets_le
    show n + 1 - (t.markov_splitter + 1) < n + 1 - t.markov_splitter
    omega
  obtain ⟨s', hs', ⟨hinv, hT, hcord, hbisim⟩, hend⟩ :=
    whileDo_returns (μ := fun t => n + 1 - t.markov_splitter) hstep (s := s) ⟨h, rfl, rfl, rfl⟩
      (show n + 1 - s.markov_splitter ≤ fuel by omega)
  exact ⟨s', hs', hinv, not_le.1 (of_decide_eq_false hend), hT, hcord, hbisim⟩

/-- With no splitter pending the blocks are the classes of the coarsest stable partition. -/
theorem LoopInv.nr_sets_eq (h : LoopInv n i s) (hend : s.B.nr_sets < s.markov_splitter) :
    s.B.nr_sets = classCount (coarsest (i.m.W n) ⊤) := by
  have hblocks : ∀ u, blockOf n s.B u < s.markov_splitter := fun u =>
    (h.ready.ok.set _ (num_state u)).2.trans_lt hend
  rw [← Splitter.ker_eq_coarsest h.pending hblocks h.coarsest_le, classCount_blockOf h.ready.ok]

/-- With no labelled transitions `update_cords` leaves the cords. -/
theorem update_cords_T (hok : Ok n s.B) (hcord : 1 ≤ s.cord_splitter)
    (hl : ∀ st, Num n st → i.in_l.of st = []) : (update_cords i s).T = s.T := by
  have hone : ∀ (T : RefinablePartition) c, Num s.B.nr_sets c → update_cord i s.B T c = T := by
    intro T c hc
    have hscan : ((s.B.places c).foldl
        (fun p lc => (i.in_l.of (s.B.elems lc)).foldl touch p) (T, [])) = (T, []) := by
      refine List.foldlRecOn (motive := fun p => p = (T, [])) _ _ rfl fun p hp lc hlc => ?_
      rw [places, List.Ico.mem] at hlc
      rw [hl _ (hok.elem lc (hok.place hc hlc.1 hlc.2))]
      exact hp
    unfold update_cord
    rw [hscan]
    rfl
  unfold update_cords
  dsimp only
  refine List.foldlRecOn (motive := fun T => T = s.T) _ _ rfl fun T hT c hc => ?_
  rw [List.Ico.mem] at hc
  rw [hone T c ⟨by omega, by omega⟩, hT]

/-- **The main loop ends** after one call of `markov_split` when there are no cords.  Its blocks are
those of a state `t` without pending splitters. -/
theorem main_loop_returns {I : State → Prop} (hready : ∀ t, I t → Ready n t)
    (hnext : ∀ t, I t → t.markov_splitter ≤ t.B.nr_sets → I (markov_step i t))
    (hl : ∀ st, Num n st → i.in_l.of st = []) (h : I s) (hpos : 1 ≤ s.markov_splitter)
    (hcord : 1 ≤ s.cord_splitter) (hT : s.T.nr_sets < s.bisim_splitter) {fuel : ℕ} (hn : 1 ≤ n)
    (hfuel : n ≤ fuel) :
    ∃ s' t, main_loop i fuel s = some s' ∧ s'.B = t.B ∧ I t ∧ t.B.nr_sets < t.markov_splitter := by
  obtain ⟨s', hs', hinv, hend, hT', hcord', hbisim⟩ :=
    markov_loop_returns hready hnext h hpos hfuel
  have hsplit : markov_split i fuel s = some (update_cords i s') := by
    rw [markov_split, hs']
    rfl
  have hB : (update_cords i s').B = s'.B := rfl
  have hstop : ¬ ((update_cords i s').markov_splitter ≤ (update_cords i s').B.nr_sets ∨
      (update_cords i s').bisim_splitter ≤ (update_cords i s').T.nr_sets) := by
    rw [update_cords_T (hready _ hinv).ok (by omega) hl, hT', hB]
    have h₁ : (update_cords i s').markov_splitter = s'.markov_splitter := rfl
    have h₂ : (update_cords i s').bisim_splitter = s'.bisim_splitter := rfl
    omega
  unfold main_loop whileDo
  by_cases hagain : s.markov_splitter ≤ s.B.nr_sets ∨ s.bisim_splitter ≤ s.T.nr_sets
  · obtain ⟨f, rfl⟩ : ∃ f, fuel = f + 1 := ⟨fuel - 1, by omega⟩
    rw [if_pos (by simpa using hagain), doWhile, hsplit, Option.bind_some,
      if_neg (by simpa using hstop)]
    exact ⟨_, s', rfl, hB, hinv, hend⟩
  · rw [if_neg (by simpa using hagain)]
    exact ⟨s, s, rfl, rfl, h, by omega⟩

/-! ## The start -/

/-- With one initial block `split_according_initial_partition` makes one block of all states. -/
theorem split_according_initial_partition_one (hn : 1 ≤ n) (hlt : n < 2 ^ 31) {sets : Arr ℕ}
    (hsets : ∀ st, Num n st → sets st = 1) :
    Ok n (split_according_initial_partition n sets) ∧
      (split_according_initial_partition n sets).nr_sets = 1 ∧
        Clean (split_according_initial_partition n sets) 1 := by
  have hnum : ∀ st, Num n st → Num 1 (sets st) := fun st hst => by
    rw [hsets st hst]
    exact ⟨le_rfl, le_rfl⟩
  have hone : (split_according_initial_partition n sets).nr_sets = 1 :=
    (nr_sets_eq_iff hn hlt hnum).2 fun bl hbl =>
      ⟨1, ⟨le_rfl, hn⟩, (hsets 1 ⟨le_rfl, hn⟩).trans (le_antisymm hbl.2 hbl.1).symm⟩
  obtain ⟨hok, hclean⟩ := split_according_initial_partition_ok hn hlt hnum hone
  exact ⟨hok, hone, hclean 1 ⟨le_rfl, le_rfl⟩⟩

/-- An input with weighed transitions only and one initial block. -/
structure WeighedOnly (m : MDP) : Prop where
  states : 1 ≤ m.nr_states
  no_labels : m.l_trans = []
  blocks : m.nr_init_blocks = 1
  sets : ∀ st, Num m.nr_states st → m.sets st = 1
  trans : ∀ t ∈ m.w_trans, Num m.nr_states t.tail ∧ Num m.nr_states t.head

theorem fromOne_mem {α : Type*} [Inhabited α] {l : List α} {k : ℕ} (hk : Num l.length k) :
    fromOne l k ∈ l := by
  obtain ⟨h₁, h₂⟩ := hk
  obtain ⟨k, rfl⟩ : ∃ j, k = j + 1 := ⟨k - 1, by omega⟩
  unfold fromOne
  rw [List.getD_cons_succ, List.getD_eq_getElem _ _ (by omega)]
  exact List.getElem_mem _

/-- The states can be sorted and the sums of the weights fit. -/
structure Fits (m : MDP) : Prop where
  states : m.nr_states < 2 ^ 31
  sums : SumsFit m

/-- It is enough that all the weights together are in range. -/
theorem sumsFit_of_total (htotal : (m.w_trans.map fun t => t.weight.natAbs).sum < 2 ^ 31) :
    SumsFit m := by
  intro l hnd hl u
  refine lt_of_le_of_lt ?_ htotal
  have hweights : ∀ ts : List ℕ, (ts.map m.w_weights).sum.natAbs ≤
      (ts.map fun tr => (m.w_weights tr).natAbs).sum := by
    intro ts
    induction ts with
    | nil => rfl
    | cons tr ts ih =>
      rw [List.map_cons, List.sum_cons, List.map_cons, List.sum_cons]
      exact (Int.natAbs_add_le _ _).trans (Nat.add_le_add_left ih _)
  have hsub : (l.filter fun tr => m.w_tails tr = u).Subperm (List.Ico 1 (m.nr_w_trans + 1)) := by
    refine List.subperm_of_subset (hnd.filter _) fun tr htr => ?_
    obtain ⟨hlo, hhi⟩ := hl tr (List.mem_of_mem_filter htr)
    exact List.Ico.mem.2 ⟨hlo, Nat.lt_succ_of_le hhi⟩
  obtain ⟨ts, hperm, hsub⟩ := hsub
  calc (sumFrom m l u).natAbs
      ≤ ((l.filter fun tr => m.w_tails tr = u).map fun tr => (m.w_weights tr).natAbs).sum :=
        hweights _
    _ = (ts.map fun tr => (m.w_weights tr).natAbs).sum := ((hperm.symm.map _).sum_eq)
    _ ≤ ((List.Ico 1 (m.nr_w_trans + 1)).map fun tr => (m.w_weights tr).natAbs).sum :=
        (hsub.map _).sum_le_sum fun _ _ => Nat.zero_le _
    _ = (m.w_trans.map fun t => t.weight.natAbs).sum := by
        conv_rhs => rw [← map_fromOne m.w_trans, List.map_map]
        rfl

theorem input_ok (h : ∀ t ∈ m.w_trans, Num m.nr_states t.tail ∧ Num m.nr_states t.head) :
    InputOk m.nr_states (input m) := by
  have htrans : ∀ tr, Num m.nr_w_trans tr → fromOne m.w_trans tr ∈ m.w_trans := fun tr htr =>
    fromOne_mem htr
  refine ⟨fun tr htr => (h _ (htrans tr htr)).1, fun tr htr => (h _ (htrans tr htr)).2,
    fun st hst => ?_⟩
  exact make_adjacent_tr_set_of (fun tr h₁ h₂ => (h _ (htrans tr ⟨h₁, h₂⟩)).2.2) hst.1 hst.2

/-- Without labelled transitions no state has one that leads to it. -/
theorem no_in_l (h : m.l_trans = []) {st : ℕ} (hst : Num m.nr_states st) :
    (input m).in_l.of st = [] := by
  have hnil : m.nr_l_trans = 0 := by rw [MDP.nr_l_trans, h]; rfl
  show (make_adjacent_tr_set m.nr_states m.nr_l_trans m.l_heads).of st = []
  rw [make_adjacent_tr_set_of (fun tr h₁ h₂ => by omega) hst.1 hst.2, hnil]
  rfl

/-- Without labelled transitions there are no cords. -/
theorem no_cords (h : m.l_trans = []) : (initial m).T.nr_sets = 0 := by
  have hnil : m.nr_l_trans = 0 := by rw [MDP.nr_l_trans, h]; rfl
  show (group_l_transitions m).nr_sets = 0
  rw [group_l_transitions, if_pos hnil]

/-- Before the main loop no slot of `ww` is used. -/
theorem initial_unused {u : ℕ} (hu : Num m.nr_states u) : (initial m).ww u = MDP_unused_weight := by
  have hmem : u ∈ List.Ico 1 (m.nr_states + 1) := List.Ico.mem.2 ⟨hu.1, Nat.lt_succ_of_le hu.2⟩
  exact (Arr.foldl_set_const _ _ u).trans (if_pos hmem)

/-- **Exactness of `part_ref`.**  On weighed transitions alone, with one initial block, it prints
the number of classes of the coarsest partition that is stable for the weights. -/
theorem minimize_exact (hm : WeighedOnly m) (hfit : Fits m) {fuel : ℕ}
    (hfuel : m.nr_states ≤ fuel) :
    minimize m fuel = some (classCount (coarsest (m.W m.nr_states) ⊤)) := by
  obtain ⟨hok, hnr, hclean⟩ := split_according_initial_partition_one hm.states hfit.states hm.sets
  have hblock : ∀ u, blockOf m.nr_states (initial m).B u = 1 := fun u => hm.sets _ (num_state u)
  have hinv : LoopInv m.nr_states (input m) (initial m) := by
    refine ⟨⟨hok, fun c hc => ?_, fun u hu => initial_unused hu⟩, le_rfl, ?_, fun u v _ => ?_⟩
    · have hc1 : c = 1 := le_antisymm (hnr ▸ hc.2) hc.1
      rw [hc1]
      exact hclean
    · exact Splitter.pending_one fun u => (hblock u).ge
    · exact (hblock u).trans (hblock v).symm
  have hnext : ∀ t, LoopInv m.nr_states (input m) t → t.markov_splitter ≤ t.B.nr_sets →
      LoopInv m.nr_states (input m) (markov_step (input m) t) := fun t ht hle =>
    ht.next (input_ok hm.trans) hfit.sums (fun t ht => (hm.trans t ht).2) hle
  obtain ⟨s', t, hs', hB, ht, hend⟩ := main_loop_returns (fun _ ht => ht.ready) hnext
    (fun st hst => no_in_l hm.no_labels hst) hinv le_rfl (show 1 ≤ 2 by decide)
    (no_cords hm.no_labels ▸ Nat.one_pos) hm.states hfuel
  have hcount := ht.nr_sets_eq hend
  have hstates : m.nr_states ≠ 0 := by
    have := hm.states
    omega
  have hblocks : ¬ (initial m).B.nr_sets ≠ m.nr_init_blocks := by
    rw [hm.blocks, not_not]
    exact hnr
  rw [minimize, if_neg hstates, if_neg hblocks, hs', Option.map_some, hB, hcount]
  rfl

end Rbsc.PartRef
