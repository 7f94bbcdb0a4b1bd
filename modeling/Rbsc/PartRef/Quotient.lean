import Rbsc.PartRef.Write

/-!
# `part_ref`: the result is the quotient

The weighed transitions that `give_w_transition` gives are the weights of the quotient of the input
by its final blocks (`isQuotient`), and their sums stay within the types (`result_sums`).  So the
file that `MDP_write` puts out is accepted again, and there is nothing left to merge in it
(`MDP_write_read`).
-/

namespace Rbsc.PartRef

open Arrays Lumping RefinablePartition Minimized Stdin

variable {m : MDP} {B : RefinablePartition} {s : State} {sets : Arr ℕ}

/-! ## The map to the blocks -/

/-- The final block of a state, counted from zero. -/
def classOf (hf : Final m B) (u : Fin m.nr_states) : Fin B.nr_sets :=
  ⟨blockOf m.nr_states B u - 1, by
    have := hf.ok.set _ (num_state u)
    unfold Num at this
    unfold blockOf
    omega⟩

theorem classOf_succ (hf : Final m B) (u : Fin m.nr_states) :
    (classOf hf u : ℕ) + 1 = blockOf m.nr_states B u :=
  Nat.sub_add_cancel (hf.ok.set _ (num_state u)).1

theorem classOf_eq_iff (hf : Final m B) (u v : Fin m.nr_states) : classOf hf u = classOf hf v ↔
    blockOf m.nr_states B u = blockOf m.nr_states B v := by
  rw [← classOf_succ hf, ← classOf_succ hf, Nat.add_right_cancel_iff, Fin.ext_iff]

theorem classOf_surjective (hf : Final m B) : Function.Surjective (classOf hf) := by
  intro c
  obtain ⟨st, hst, hset⟩ := hf.ok.exists_mem (b := (c : ℕ) + 1) ⟨Nat.le_add_left 1 c, c.2⟩
  obtain ⟨u, rfl⟩ := exists_state hst
  exact ⟨u, Fin.ext (Nat.add_right_cancel ((classOf_succ hf u).trans hset))⟩

theorem ker_classOf (hf : Final m B) :
    Setoid.ker (classOf hf) = Lumping.coarsest (m.W m.nr_states) m.initialBlocks := by
  rw [← hf.coarsest]
  ext u v
  exact classOf_eq_iff hf u v

/-! ## The weights -/

/-- Of transitions with different ends at most one has the given ends. -/
theorem sum_ends {l : List (ℕ × ℤ × ℕ)} (hl : (l.map fun t => (t.1, t.2.2)).Nodup) {b c : ℕ} {w : ℤ}
    (hw : ∀ w', (b, w', c) ∈ l ↔ w' ≠ 0 ∧ w' = w) :
    ((l.filter fun t => t.1 = b ∧ t.2.2 = c).map fun t => t.2.1).sum = w := by
  have hsub : ((l.filter fun t => t.1 = b ∧ t.2.2 = c).map fun t => (t.1, t.2.2)).Nodup :=
    hl.sublist (List.filter_sublist.map _)
  have hmem : ∀ t, t ∈ l.filter (fun t => t.1 = b ∧ t.2.2 = c) ↔
      (t.2.1 ≠ 0 ∧ t.2.1 = w) ∧ t.1 = b ∧ t.2.2 = c := by
    intro t
    rw [List.mem_filter, decide_eq_true_eq]
    refine and_congr_left fun hends => ?_
    rw [← hw, ← hends.1, ← hends.2]
  generalize l.filter (fun t => t.1 = b ∧ t.2.2 = c) = l' at hsub hmem
  match l' with
  | [] =>
    by_contra hne
    exact List.not_mem_nil ((hmem (b, w, c)).2 ⟨⟨Ne.symm hne, rfl⟩, rfl, rfl⟩)
  | [t] => simpa using ((hmem t).1 (List.mem_singleton_self t)).1.2
  | t :: t' :: l' =>
    have ht := ((hmem t).1 (by simp)).2
    have ht' := ((hmem t').1 (by simp)).2
    exact absurd hsub (by simp [ht, ht'])

theorem result_W (hm : Accepted m) (hf : Final m s.B) (u : Fin m.nr_states) (c : Fin s.B.nr_sets) :
    (resultMDP m s.B (finish m s).transitions sets).W s.B.nr_sets (classOf hf u) c =
      Splitter.weightInto (m.W m.nr_states)
        (Splitter.block (blockOf m.nr_states s.B) ((c : ℕ) + 1)) u := by
  have hu := hf.ok.set _ (num_state u)
  have hc : Num s.B.nr_sets ((c : ℕ) + 1) := num_state c
  unfold MDP.W
  rw [classOf_succ, resultMDP]
  dsimp only
  rw [List.filter_map, List.map_map]
  refine sum_ends nodup_transitions fun w' => ?_
  rw [mem_transitions hm hf]
  constructor
  · rintro ⟨-, -, hne, hall⟩
    exact ⟨hne, (hall u rfl).symm⟩
  · rintro ⟨hne, rfl⟩
    exact ⟨hu, hc, hne, fun v hv => hf.same_weight hc hv⟩

theorem isQuotient (hm : Accepted m) (hf : Final m s.B) : IsQuotient (m.W m.nr_states) (classOf hf)
    ((resultMDP m s.B (finish m s).transitions sets).W s.B.nr_sets) := by
  classical
  intro u c
  rw [result_W hm hf]
  unfold Splitter.weightInto
  refine Finset.sum_congr ?_ fun _ _ => rfl
  ext y
  simp only [Finset.mem_filter, Finset.mem_univ, true_and, Splitter.mem_block]
  rw [← classOf_succ hf, Nat.add_right_cancel_iff, Fin.ext_iff]

/-! ## The sums stay in range -/

/-- A sum over two kinds of items. -/
theorem sum_filter_or {α : Type*} (f : α → ℤ) {p q : α → Prop} [DecidablePred p] [DecidablePred q]
    (h : ∀ x, p x → ¬ q x) (l : List α) : ((l.filter fun x => p x ∨ q x).map f).sum =
      ((l.filter fun x => p x).map f).sum + ((l.filter fun x => q x).map f).sum := by
  induction l with
  | nil => rfl
  | cons x l ih =>
    have hx := h x
    simp only [Bool.decide_or] at ih ⊢
    by_cases hp : p x
    · simp [hp, hx hp, ih, add_assoc]
    · by_cases hq : q x
      · simp [hp, hq, ih, add_left_comm]
      · simp [hp, hq, ih]

/-- The weights into several blocks together. -/
theorem sum_headSum {l C : List ℕ} (hC : C.Nodup) : (C.map (headSum m B l)).sum =
    ((l.filter fun tr => B.sets (m.w_heads tr) ∈ C).map m.w_weights).sum := by
  induction C with
  | nil => simp
  | cons c C ih =>
    obtain ⟨hcC, hC⟩ := List.nodup_cons.1 hC
    have hdisj : ∀ tr, B.sets (m.w_heads tr) = c → ¬ B.sets (m.w_heads tr) ∈ C := by
      rintro tr rfl
      exact hcC
    rw [List.map_cons, List.sum_cons, ih hC, headSum, ← sum_filter_or m.w_weights hdisj l]
    simp only [List.mem_cons]

theorem fromOne_map {α β : Type*} [Inhabited α] [Inhabited β] (f : α → β) {l : List α} {k : ℕ}
    (hk : Num l.length k) : fromOne (l.map f) k = f (fromOne l k) := by
  obtain ⟨h₁, h₂⟩ := hk
  obtain ⟨k, rfl⟩ : ∃ j, k = j + 1 := ⟨k - 1, by omega⟩
  unfold fromOne
  rw [List.getD_cons_succ, List.getD_cons_succ, List.getD_eq_getElem _ _ (by simpa using h₂),
    List.getD_eq_getElem _ _ (by omega), List.getElem_map]

theorem fromOne_inj {α : Type*} [Inhabited α] {l : List α} (hl : l.Nodup) {k k' : ℕ}
    (hk : Num l.length k) (hk' : Num l.length k') (h : fromOne l k = fromOne l k') : k = k' := by
  obtain ⟨h₁, h₂⟩ := hk
  obtain ⟨h₃, h₄⟩ := hk'
  obtain ⟨k, rfl⟩ : ∃ j, k = j + 1 := ⟨k - 1, by omega⟩
  obtain ⟨k', rfl⟩ : ∃ j, k' = j + 1 := ⟨k' - 1, by omega⟩
  unfold fromOne at h
  rw [List.getD_cons_succ, List.getD_cons_succ, List.getD_eq_getElem _ _ (by omega),
    List.getD_eq_getElem _ _ (by omega), hl.getElem_inj_iff] at h
  rw [h]

/-- The weight of a transition of the result, as a sum over transitions of the first state. -/
theorem transition_weight (hm : Accepted m) (hf : Final m s.B) {b c : ℕ} {w : ℤ}
    (h : (b, w, c) ∈ (finish m s).transitions) : w = headSum m s.B
      (trsOf m.w_tails (s.B.elems (s.B.begins b)) (m.nr_w_trans + 1)) c := by
  obtain ⟨hb, -, -, hw⟩ := (mem_transitions hm hf).1 h
  obtain ⟨u, hu, hub⟩ := first_state hf.ok hb
  rw [← hw u hub, ← hu, headSum_trsOf hm]

/-- **The sums of the result are sums of the input.** -/
theorem result_sums (hm : Accepted m) (hrange : InRange m) (hf : Final m s.B) {l : List ℕ}
    (hl : l.Nodup) (hnum : ∀ tr ∈ l,
      Num (resultMDP m s.B (finish m s).transitions sets).nr_w_trans tr) (b : ℕ) :
    (sumFrom (resultMDP m s.B (finish m s).transitions sets) l b).natAbs < 2 ^ 31 := by
  generalize hT : (finish m s).transitions = T at hnum ⊢
  have hnd : (T.map fun t => (t.1, t.2.2)).Nodup := hT ▸ nodup_transitions
  have hnum : ∀ tr ∈ l, Num T.length tr := fun tr htr => by
    have := hnum tr htr
    rwa [MDP.nr_w_trans, resultMDP, List.length_map] at this
  have htrans : ∀ tr ∈ l, fromOne (resultMDP m s.B T sets).w_trans tr =
      ⟨(fromOne T tr).1, (fromOne T tr).2.1, (fromOne T tr).2.2⟩ := fun tr htr =>
    fromOne_map _ (hnum tr htr)
  -- the transitions of the list that leave `b`, as they were given
  let E : List (ℕ × ℤ × ℕ) := (l.map (fromOne T)).filter fun t => t.1 = b
  have hsum : sumFrom (resultMDP m s.B T sets) l b = (E.map fun t => t.2.1).sum := by
    have hE : E = (l.filter fun tr => (fromOne T tr).1 = b).map (fromOne T) := List.filter_map
    unfold sumFrom
    rw [hE, List.map_map]
    have htails : ∀ tr ∈ l, (resultMDP m s.B T sets).w_tails tr = (fromOne T tr).1 :=
      fun tr htr => by rw [MDP.w_tails, htrans tr htr]
    rw [List.filter_congr fun tr htr => by rw [htails tr htr]]
    refine congrArg List.sum (List.map_congr_left fun tr htr => ?_)
    rw [MDP.w_weights, htrans tr (List.mem_of_mem_filter htr)]
    rfl
  have hE : ∀ t ∈ E, t ∈ T ∧ t.1 = b := by
    intro t ht
    obtain ⟨htl, hb⟩ := List.mem_filter.1 ht
    obtain ⟨tr, htr, rfl⟩ := List.mem_map.1 htl
    exact ⟨fromOne_mem (hnum tr htr), of_decide_eq_true hb⟩
  have hEnd : E.Nodup := by
    refine (List.Nodup.map_on (fun tr htr tr' htr' heq => ?_) hl).filter _
    exact fromOne_inj (List.Nodup.of_map _ hnd) (hnum tr htr) (hnum tr' htr') heq
  have hheads : (E.map fun t => t.2.2).Nodup := by
    refine List.Nodup.map_on (fun t ht t' ht' heq => ?_) hEnd
    obtain ⟨hm₁, hb₁⟩ := hE t ht
    obtain ⟨hm₂, hb₂⟩ := hE t' ht'
    exact List.inj_on_of_nodup_map hnd hm₁ hm₂ (Prod.ext (hb₁.trans hb₂.symm) heq)
  have hweights : (E.map fun t => t.2.1) = (E.map fun t => t.2.2).map
      (headSum m s.B (trsOf m.w_tails (s.B.elems (s.B.begins b)) (m.nr_w_trans + 1))) := by
    rw [List.map_map]
    refine List.map_congr_left fun t ht => ?_
    obtain ⟨hmem, hb⟩ := hE t ht
    rw [← hT] at hmem
    rw [transition_weight hm hf hmem, hb]
    rfl
  rw [hsum, hweights, sum_headSum hheads]
  exact hrange.sum_trsOf _ _

/-- There are not more transitions than pairs of blocks. -/
theorem length_transitions_le_sq (hm : Accepted m) (hrange : InRange m) (hf : Final m s.B) :
    (finish m s).transitions.length ≤ s.B.nr_sets * s.B.nr_sets := by
  have hcard : ((finish m s).transitions.map fun t => (t.1, t.2.2)).toFinset.card ≤
      (Finset.Icc 1 s.B.nr_sets ×ˢ Finset.Icc 1 s.B.nr_sets).card := by
    refine Finset.card_le_card fun p hp => ?_
    obtain ⟨⟨b, w, c⟩, ht, rfl⟩ := List.mem_map.1 (List.mem_toFinset.1 hp)
    obtain ⟨hb, hc, -⟩ := transition_bounds hm hrange hf ht
    exact Finset.mem_product.2 ⟨Finset.mem_Icc.2 hb, Finset.mem_Icc.2 hc⟩
  rw [List.toFinset_card_of_nodup nodup_transitions, List.length_map, Finset.card_product,
    Nat.card_Icc, Nat.add_sub_cancel] at hcard
  exact hcard

/-! ## The round trip -/

/-- The initial blocks of the result are those of the states. -/
theorem result_sets (hf : Final m B)
    (hsets : ∀ c, Num B.nr_sets c → sets c = initialOf m B c) (u : Fin m.nr_states) :
    sets ((classOf hf u : ℕ) + 1) = m.sets ((u : ℕ) + 1) := by
  rw [classOf_succ]
  exact (hsets _ (hf.ok.set _ (num_state u))).trans (initialOf_eq hf (num_state u) rfl)

/-- **Nothing is left to merge** in the result. -/
theorem minimize_result (hm : Accepted m) (hrange : InRange m) (hr : ReachesLoop m)
    (hf : Final m s.B) (hsets : ∀ c, Num s.B.nr_sets c → sets c = initialOf m s.B c)
    (hacc : Accepted (resultMDP m s.B (finish m s).transitions sets)) {fuel : ℕ}
    (hfuel : s.B.nr_sets ≤ fuel) :
    minimize (resultMDP m s.B (finish m s).transitions sets) fuel = some s.B.nr_sets := by
  have hfit : Fits (resultMDP m s.B (finish m s).transitions sets) :=
    ⟨hf.ok.nr_sets_le.trans_lt hrange.states, fun l hnd hnum b => result_sums hm hrange hf hnd hnum b⟩
  have hreach : ReachesLoop (resultMDP m s.B (finish m s).transitions sets) := by
    refine (reachesLoop_iff hacc hfit.states).2 ⟨?_, fun bl hbl => ?_⟩
    · have hnum := hf.ok.set 1 ⟨le_rfl, Nat.one_le_iff_ne_zero.2 hr.1⟩
      exact Nat.one_le_iff_ne_zero.1 (hnum.1.trans hnum.2)
    · obtain ⟨st, hst, hset⟩ := ((reachesLoop_iff hm hrange.states).1 hr).2 bl hbl
      have hc := hf.ok.set st hst
      exact ⟨_, hc, (hsets _ hc).trans ((initialOf_eq hf hst rfl).trans hset)⟩
  have hcomap : ((resultMDP m s.B (finish m s).transitions sets).initialBlocks).comap
      (classOf hf) = m.initialBlocks := by
    ext u v
    show sets ((classOf hf u : ℕ) + 1) = sets ((classOf hf v : ℕ) + 1) ↔ m.sets _ = m.sets _
    rw [result_sets hf hsets, result_sets hf hsets]
  have hbot : Lumping.coarsest ((resultMDP m s.B (finish m s).transitions sets).W s.B.nr_sets)
      (resultMDP m s.B (finish m s).transitions sets).initialBlocks = ⊥ :=
    (isQuotient hm hf).coarsest_eq_bot (classOf_surjective hf) (by rw [hcomap, ker_classOf hf])
  rw [hacc.minimize_eq rfl hfit hreach hfuel]
  have hcount : classCount (⊥ : Setoid (Fin s.B.nr_sets)) = s.B.nr_sets := by
    rw [classCount_bot, Nat.card_fin]
  exact congrArg some ((congrArg classCount hbot).trans hcount)

/-- **Written and read back.**  What `MDP_write` puts out of the result of an accepted input without
labelled transitions is accepted again.  It is the quotient of the input by the coarsest stable
partition below the initial one, its initial blocks are those of the input, and minimizing it
merges nothing. -/
theorem MDP_write_read {σ : Type} {rd : Reader σ} {k : ℕ} {x : σ} (h : MDP_read rd k x = some m)
    (hl : m.l_trans = []) (hrange : InRange m) (hr : ReachesLoop m) {fuel : ℕ}
    (hfuel : m.nr_states < fuel) :
    ∃ o w m', minimized m fuel = some o ∧ MDP_write fuel o ⟨[], 0⟩ = some w ∧ Lines w ∧
      MDP_read byteReader fuel (bytes w.os) = some m' ∧
      (∃ q : Fin m.nr_states → Fin m'.nr_states, Function.Surjective q ∧
        Setoid.ker q = coarsest (m.W m.nr_states) m.initialBlocks ∧
        (∀ u : Fin m.nr_states, o.which_block ((u : ℕ) + 1) = some ((q u : ℕ) + 1)) ∧
        IsQuotient (m.W m.nr_states) q (m'.W m'.nr_states) ∧
        ∀ u : Fin m.nr_states, m'.sets ((q u : ℕ) + 1) = m.sets ((u : ℕ) + 1)) ∧
      m'.nr_labels = m.nr_labels ∧ m'.nr_init_blocks = m.nr_init_blocks ∧ m'.l_trans = [] ∧
      minimize m' fuel = some m'.nr_states := by
  have hm := MDP_read_accepted h
  obtain ⟨s, hs, hf⟩ := main_loop_final hm hl hrange.toFits hr hfuel.le
  obtain ⟨w, ls, hw, hcount, hls, hlines, hend, hwrote⟩ := MDP_write_spec hm hrange hr hf hfuel
  obtain ⟨ds, htext, hvalue⟩ := hwrote.text hend
  have hout := @handsOut_signed ds [] (by simp) []
  rw [List.nil_append, List.append_nil, ← htext, hvalue] at hout
  have hn := Nat.one_le_iff_ne_zero.2 hr.1
  have hk := hf.ok.nr_sets_le
  have hstates := hrange.states
  have hinit : ∀ c, Num s.B.nr_sets c → Num m.nr_init_blocks (initialOf m s.B c) := by
    intro c hc
    exact hm.sets _ (hf.ok.elem _ (hf.ok.place hc le_rfl (hf.ok.segment c hc).2.1))
  have hone := hm.sets 1 ⟨le_rfl, hn⟩
  obtain ⟨sets, hsets, hread⟩ := MDP_read_ints hf ((hf.ok.set 1 ⟨le_rfl, hn⟩).1.trans
    (hf.ok.set 1 ⟨le_rfl, hn⟩).2) (by omega) hrange.labels (hone.1.trans hone.2)
    (hf.nr_init_blocks_le hm hr) (length_transitions_le_sq hm hrange hf)
    ((length_transitions_le hm hf).trans_lt hrange.trans)
    (fun t ht => by
      obtain ⟨hb, hc, hw⟩ := transition_bounds hm hrange hf ht
      exact ⟨hb, hc, hw⟩)
    hls hcount hinit (hk.trans_lt hfuel) hout
  refine ⟨finish m s, w, _, ?_, hw, hlines, hread, ⟨classOf hf, classOf_surjective hf,
    ker_classOf hf, fun u => ?_, isQuotient hm hf, result_sets hf hsets⟩, rfl, rfl, rfl,
    minimize_result hm hrange hr hf hsets (MDP_read_accepted hread) (hk.trans hfuel.le)⟩
  · exact minimized_eq hr hs
  · rw [which_block_finish, classOf_succ]

theorem MDP_write_read_fork : InRange fork ∧ ∃ o w m', minimized fork 4 = some o ∧
    MDP_write 4 o ⟨[], 0⟩ = some w ∧ MDP_read byteReader 4 (bytes w.os) = some m' ∧
      minimize m' 4 = some m'.nr_states := by
  have hrange : InRange fork :=
    ⟨fork_fits, by decide, by decide⟩
  obtain ⟨o, w, m', ho, hw, -, hread, -, -, -, -, hmin⟩ :=
    MDP_write_read fork_read rfl hrange ⟨by decide, rfl⟩ (show 3 < 4 by decide)
  exact ⟨hrange, o, w, m', ho, hw, hread, hmin⟩

end Rbsc.PartRef
