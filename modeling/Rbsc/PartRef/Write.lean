import Rbsc.PartRef.Give
import Rbsc.PartRef.Writer

/-!
# `part_ref`: the result is written and read back

`MDP_write` on the result of `minimize`.  What it writes is the quotient of the input by the final
blocks: `MDP_read` accepts it, and minimizing it merges nothing (`MDP_write_read`).
-/

namespace Rbsc.PartRef

open Arrays ForLoop Lumping RefinablePartition Minimized Stdin

/-! ## The model -/

/-- The loop over the weighed transitions. -/
def write_w_transitions : ℕ → Minimized → Writer → Option (Minimized × Writer)
  | 0, o, output => some (o, output)
  | tr + 1, o, output => do
    let ((tail, weight, head), o) := o.give_w_transition
    let output ← output.nat tail
    let output ← output.intgr weight
    let output ← output.nat head
    write_w_transitions tr o output

/-- The loop over the states of a block, given up after `fuel` turns. -/
def write_block : ℕ → ℕ → Minimized → Writer → Option (Minimized × Writer)
  | 0, _, _, _ => none
  | fuel + 1, st, o, output =>
    if st = 0 then some (o, output)
    else do
      let output ← output.nat st
      let (st, o) := o.give_block_next
      write_block fuel st o output

/-- The loop over the blocks from `bl` on. -/
def write_blocks (fuel : ℕ) : ℕ → ℕ → Minimized → Writer → Option Writer
  | 0, _, _, output => some output
  | more + 1, bl, o, output => do
    let (st, o) ← o.give_block_first bl
    let (o, output) ← write_block fuel st o output
    let output ← output.nat 0
    write_blocks fuel more (bl + 1) o output.end_line

/-- `MDP_write`.  There are no labelled transitions. -/
def MDP_write (fuel : ℕ) (o : Minimized) (output : Writer) : Option Writer := do
  let output ← output.nat o.B.nr_sets
  let output ← output.nat o.m.nr_labels
  let output ← output.nat 0
  let output ← output.nat o.nr_w_out
  let output ← output.nat o.m.nr_init_blocks
  let output := output.new_line.end_line
  let (o, output) ← write_w_transitions o.nr_w_out o output
  write_blocks fuel (o.m.nr_init_blocks - 1) 2 o output.end_line

/-! ## What is written -/

section Written

variable {o : Minimized} {w : Writer} {ts : List ℤ}

/-- The numbers of the transitions. -/
def transitionNumbers (l : List (ℕ × ℤ × ℕ)) : List ℤ :=
  l.flatMap fun t => [(t.1 : ℤ), t.2.1, (t.2.2 : ℤ)]

/-- The numbers fit into the buffer. -/
def Fit (l : List (ℕ × ℤ × ℕ)) : Prop :=
  ∀ t ∈ l, t.1 < 10 ^ 20 ∧ t.2.1.natAbs < 10 ^ 20 ∧ t.2.2 < 10 ^ 20

theorem write_w_transitions_spec (hg : o.Giving) {k : ℕ} (hk : k ≤ o.rest.length)
    (hfit : Fit (o.rest.take k)) (h : Wrote w ts) (hl : Lines w) :
    ∃ w', write_w_transitions k o w = some ((give_w_transitions k o).2, w') ∧
      Wrote w' (ts ++ transitionNumbers (o.rest.take k)) ∧ Lines w' := by
  induction k generalizing o w ts with
  | zero => exact ⟨w, rfl, by simpa [transitionNumbers] using h, hl⟩
  | succ k ih =>
    obtain ⟨hg', -, heq, hrest⟩ := give_w_transition_spec hg
    obtain ⟨t, l, hcons⟩ := List.exists_cons_of_length_pos (show 0 < o.rest.length by omega)
    rw [hcons] at heq hrest hk hfit ⊢
    rw [write_w_transitions, give_w_transitions]
    generalize o.give_w_transition = r at hg' heq hrest ⊢
    obtain ⟨t', o'⟩ := r
    rw [List.headD_cons] at heq
    rw [List.tail_cons] at hrest
    obtain rfl : t' = t := heq
    obtain ⟨⟨hf₁, hf₂, hf₃⟩, hfit'⟩ := List.forall_mem_cons.1 hfit
    obtain ⟨w₁, hw₁, h₁, hl₁⟩ := Writer.nat_spec h hl hf₁
    obtain ⟨w₂, hw₂, h₂, hl₂⟩ := Writer.intgr_spec h₁ hl₁ hf₂
    obtain ⟨w₃, hw₃, h₃, hl₃⟩ := Writer.nat_spec h₂ hl₂ hf₃
    obtain ⟨w', hw', h', hl'⟩ := ih hg' (by rw [hrest]; exact Nat.le_of_succ_le_succ hk)
      (by rw [hrest]; exact hfit') h₃ hl₃
    refine ⟨w', ?_, ?_, hl'⟩
    · simp only [hw₁, hw₂, hw₃, Option.bind_eq_bind, Option.bind_some]
      exact hw'
    · rw [hrest] at h'
      simpa [transitionNumbers] using h'

theorem write_block_spec (fuel st : ℕ) (o : Minimized) (hlen : (give_blocks fuel st o).1.length < fuel)
    (hfit : ∀ c ∈ (give_blocks fuel st o).1, c < 10 ^ 20) (h : Wrote w ts) (hl : Lines w) :
    ∃ w', write_block fuel st o w = some ((give_blocks fuel st o).2, w') ∧
      Wrote w' (ts ++ (give_blocks fuel st o).1.map (fun c : ℕ => (c : ℤ))) ∧ Lines w' := by
  induction fuel generalizing o w ts st with
  | zero => omega
  | succ fuel ih =>
    rw [write_block]
    rw [give_blocks] at hlen hfit ⊢
    by_cases hst : st = 0
    · rw [if_pos hst, if_pos hst]
      exact ⟨w, rfl, by simpa using h, hl⟩
    · rw [if_neg hst] at hlen hfit ⊢
      rw [if_neg hst]
      dsimp only at hlen hfit ⊢
      obtain ⟨hf₁, hfit'⟩ := List.forall_mem_cons.1 hfit
      obtain ⟨w₁, hw₁, h₁, hl₁⟩ := Writer.nat_spec h hl hf₁
      obtain ⟨w', hw', h', hl'⟩ := ih _ _ (Nat.lt_of_succ_lt_succ hlen) hfit' h₁ hl₁
      refine ⟨w', ?_, by simpa using h', hl'⟩
      rw [hw₁]
      exact hw'

/-- `l` lists the final blocks of initial block `bl`. -/
structure BlockList (m : MDP) (B : RefinablePartition) (bl : ℕ) (l : List ℕ) : Prop where
  nodup : l.Nodup
  mem : ∀ c, c ∈ l ↔ Num B.nr_sets c ∧ ∀ st, Num m.nr_states st → B.sets st = c → m.sets st = bl

/-- The lists of the blocks from `bl` on. -/
def BlockLists (m : MDP) (B : RefinablePartition) : ℕ → List (List ℕ) → Prop
  | _, [] => True
  | bl, l :: ls => BlockList m B bl l ∧ BlockLists m B (bl + 1) ls

/-- The numbers of the blocks. -/
def blockNumbers (ls : List (List ℕ)) : List ℤ :=
  ls.flatMap fun l => l.map (fun c : ℕ => (c : ℤ)) ++ [0]

theorem BlockList.length_lt {m : MDP} {B : RefinablePartition} {bl : ℕ} {l : List ℕ}
    (h : BlockList m B bl l) {fuel : ℕ} (hfuel : B.nr_sets < fuel) : l.length < fuel := by
  have hsub : l ⊆ List.Ico 1 (B.nr_sets + 1) := fun c hc =>
    List.Ico.mem.2 ⟨((h.mem c).1 hc).1.1, Nat.lt_succ_of_le ((h.mem c).1 hc).1.2⟩
  have hle := (h.nodup.subperm hsub).length_le
  rw [List.Ico.length] at hle
  omega

theorem write_blocks_spec (hm : Accepted o.m) (hr : ReachesLoop o.m) (hf : Final o.m o.B)
    (hob : o.init_block_borders = init_block_borders o.m) (hlt : o.m.nr_states < 10 ^ 20)
    {fuel : ℕ} (hfuel : o.m.nr_states < fuel) {more bl : ℕ} (hbl : 1 ≤ bl)
    (hmore : bl + more ≤ o.m.nr_init_blocks + 1) (h : Wrote w ts) (hl : Lines w)
    (hend : w.nr_on_line = 0) :
    ∃ w' ls, write_blocks fuel more bl o w = some w' ∧ ls.length = more ∧ BlockLists o.m o.B bl ls ∧
      Wrote w' (ts ++ blockNumbers ls) ∧ Lines w' ∧ w'.nr_on_line = 0 := by
  induction more generalizing o w ts bl with
  | zero => exact ⟨w, [], rfl, rfl, trivial, by simpa [blockNumbers] using h, hl, hend⟩
  | succ more ih =>
    obtain ⟨st, o₁, l, o₂, hfirst, hgive, -, hsame, hnd, hmem⟩ :=
      give_block_spec hm hr hf hob ⟨hbl, by omega⟩ hfuel
    have hlist : BlockList o.m o.B bl l := ⟨hnd, hmem⟩
    have hblock := @write_block_spec w ts fuel st o₁
    rw [hgive] at hblock
    have hlt' : ∀ c ∈ l, c < 10 ^ 20 := fun c hc =>
      ((((hmem c).1 hc).1.2.trans hf.ok.nr_sets_le).trans_lt hlt)
    obtain ⟨w₁, hw₁, h₁, hl₁⟩ := hblock (hlist.length_lt (hf.ok.nr_sets_le.trans_lt hfuel)) hlt' h hl
    obtain ⟨w₂, hw₂, h₂, hl₂⟩ := Writer.nat_spec h₁ hl₁ (show 0 < 10 ^ 20 by decide)
    obtain ⟨h₃, hend₃⟩ := h₂.end_line
    rw [hsame] at hw₁
    obtain ⟨w', ls, hw', hlen, hls, h', hl', hend'⟩ := ih
      (o := { o with gb_limit := o₂.gb_limit, gb_now := o₂.gb_now }) hm hr hf hob hlt hfuel
      (show 1 ≤ bl + 1 by omega) (show bl + 1 + more ≤ o.m.nr_init_blocks + 1 by omega) h₃
      hl₂.end_line hend₃
    refine ⟨w', l :: ls, ?_, by rw [List.length_cons, hlen], ⟨hlist, hls⟩, ?_, hl', hend'⟩
    · rw [write_blocks, hfirst]
      simp only [hw₁, hw₂, Option.bind_eq_bind, Option.bind_some]
      exact hw'
    · simpa [blockNumbers] using h'

end Written

/-! ## The sizes -/

section Sizes

variable {m : MDP} {s : State}

/-- The sizes, and the sums of weights that leave a state, are within the types of the program. -/
structure InRange (m : MDP) : Prop extends Fits m where
  labels : m.nr_labels < 2 ^ 32
  trans : m.nr_w_trans < 2 ^ 31

/-- Sums over transitions of one state. -/
theorem InRange.sum_trsOf (h : InRange m) (p : ℕ → Prop) [DecidablePred p] (u : ℕ) :
    (((trsOf m.w_tails u (m.nr_w_trans + 1)).filter fun tr => p tr).map m.w_weights).sum.natAbs <
      2 ^ 31 := by
  have hsum := h.sums ((List.Ico 1 (m.nr_w_trans + 1)).filter fun tr => p tr)
    ((List.Ico.nodup _ _).filter _) (fun tr htr => ?_) u
  · unfold sumFrom at hsum
    unfold trsOf
    rw [List.filter_filter] at hsum ⊢
    rwa [List.filter_congr fun tr _ => Bool.and_comm (decide (p tr)) _]
  · have hmem := List.Ico.mem.1 (List.mem_of_mem_filter htr)
    exact ⟨hmem.1, Nat.lt_succ_iff.1 hmem.2⟩

/-- The ends and the weight of a transition of the result. -/
theorem transition_bounds (hm : Accepted m) (hrange : InRange m) (hf : Final m s.B) {b c : ℕ}
    {w : ℤ} (h : (b, w, c) ∈ (finish m s).transitions) :
    Num s.B.nr_sets b ∧ Num s.B.nr_sets c ∧ w.natAbs < 2 ^ 31 := by
  obtain ⟨hb, hc, -, hw⟩ := (mem_transitions hm hf).1 h
  obtain ⟨u, -, hub⟩ := first_state hf.ok hb
  refine ⟨hb, hc, ?_⟩
  rw [← hw u hub, ← headSum_trsOf hm]
  exact hrange.sum_trsOf _ _

/-- The result has no more transitions than the input. -/
theorem length_transitions_le (hm : Accepted m) (hf : Final m s.B) :
    (finish m s).transitions.length ≤ m.nr_w_trans := by
  have hrow : ∀ b, ((finish m s).row b).length ≤ ((finish m s).out b).length := by
    intro b
    rw [row, rowOf, List.length_map]
    refine (List.length_filter_le _ _).trans ((List.dedup_sublist _).length_le.trans ?_)
    simp
  -- the first states have different transitions
  have hnd : ((List.Ico 1 (s.B.nr_sets + 1)).flatMap (finish m s).out).Nodup := by
    have hnum : ∀ b ∈ List.Ico 1 (s.B.nr_sets + 1), Num s.B.nr_sets b := fun b hb =>
      ⟨(List.Ico.mem.1 hb).1, Nat.lt_succ_iff.1 (List.Ico.mem.1 hb).2⟩
    rw [List.nodup_flatMap]
    refine ⟨fun b hb => ?_, ?_⟩
    · rw [out_finish hm hf (hnum b hb)]
      exact (List.Ico.nodup _ _).filter _
    · refine (List.Ico.nodup _ _).imp_of_mem fun {b b'} hb hb' hne => ?_
      rw [Function.onFun, List.disjoint_left, out_finish hm hf (hnum b hb),
        out_finish hm hf (hnum b' hb')]
      intro tr htr htr'
      have htail := of_decide_eq_true (List.mem_filter.1 htr).2
      have htail' := of_decide_eq_true (List.mem_filter.1 htr').2
      rw [htail] at htail'
      refine hne ?_
      rw [← hf.ok.sets_elems (hnum b hb) le_rfl (hf.ok.segment b (hnum b hb)).2.1, htail',
        hf.ok.sets_elems (hnum b' hb') le_rfl (hf.ok.segment b' (hnum b' hb')).2.1]
  have hsub : (List.Ico 1 (s.B.nr_sets + 1)).flatMap (finish m s).out ⊆
      List.Ico 1 (m.nr_w_trans + 1) := by
    intro tr htr
    obtain ⟨b, hb, htr⟩ := List.mem_flatMap.1 htr
    rw [out_finish hm hf ⟨(List.Ico.mem.1 hb).1, Nat.lt_succ_iff.1 (List.Ico.mem.1 hb).2⟩] at htr
    exact List.mem_of_mem_filter htr
  have hle := (hnd.subperm hsub).length_le
  rw [List.Ico.length, Nat.add_sub_cancel] at hle
  refine le_trans ?_ hle
  rw [transitions, List.length_flatMap, List.length_flatMap]
  exact List.sum_le_sum fun b _ => hrow b

/-- Every initial block has a final one. -/
theorem Final.nr_init_blocks_le {B : RefinablePartition} (hf : Final m B) (hm : Accepted m)
    (hr : ReachesLoop m) : m.nr_init_blocks ≤ B.nr_sets := by
  have hall := ((reachesLoop_iff hm hf.ok.size).1 hr).2
  choose! st hst using hall
  have hcard : (Finset.Icc 1 m.nr_init_blocks).card ≤ (Finset.Icc 1 B.nr_sets).card := by
    refine Finset.card_le_card_of_injOn (fun bl => B.sets (st bl)) (fun bl hbl => ?_)
      fun bl hbl bl' hbl' heq => ?_
    · exact Finset.mem_Icc.2 (hf.ok.set _ (hst bl (Finset.mem_Icc.1 hbl)).1)
    · obtain ⟨hnum, hset⟩ := hst bl (Finset.mem_Icc.1 hbl)
      obtain ⟨hnum', hset'⟩ := hst bl' (Finset.mem_Icc.1 hbl')
      rw [← hset, ← hset']
      exact hf.within.refines _ _ hnum hnum' heq
  simpa using hcard

/-- **What `MDP_write` puts out**: the sizes, the transitions and the blocks, on short lines. -/
theorem MDP_write_spec (hm : Accepted m) (hrange : InRange m) (hr : ReachesLoop m)
    (hf : Final m s.B) {fuel : ℕ} (hfuel : m.nr_states < fuel) :
    ∃ w ls, MDP_write fuel (finish m s) ⟨[], 0⟩ = some w ∧ ls.length = m.nr_init_blocks - 1 ∧
      BlockLists m s.B 2 ls ∧ Lines w ∧ w.nr_on_line = 0 ∧
        Wrote w ([(s.B.nr_sets : ℤ), (m.nr_labels : ℤ), 0, ((finish m s).transitions.length : ℤ),
          (m.nr_init_blocks : ℤ)] ++ transitionNumbers (finish m s).transitions ++
            blockNumbers ls) := by
  obtain ⟨hgiving, hrest, hnr⟩ := finish_giving hm hrange.sums hf
  have hk := hf.ok.nr_sets_le
  have hstates := hrange.states
  have hlabels := hrange.labels
  have htrans := (length_transitions_le hm hf).trans_lt hrange.trans
  have hK := (hf.nr_init_blocks_le hm hr).trans hk
  have hstart : Wrote ⟨[], 0⟩ [] := .ended []
  have hlines : Lines ⟨[], 0⟩ := ⟨[], [], rfl, rfl, by simp⟩
  obtain ⟨w₁, hw₁, h₁, hl₁⟩ := Writer.nat_spec hstart hlines (k := s.B.nr_sets) (by omega)
  obtain ⟨w₂, hw₂, h₂, hl₂⟩ := Writer.nat_spec h₁ hl₁ (k := m.nr_labels) (by omega)
  obtain ⟨w₃, hw₃, h₃, hl₃⟩ := Writer.nat_spec h₂ hl₂ (k := 0) (by decide)
  obtain ⟨w₄, hw₄, h₄, hl₄⟩ :=
    Writer.nat_spec h₃ hl₃ (k := (finish m s).transitions.length) (by omega)
  obtain ⟨w₅, hw₅, h₅, hl₅⟩ := Writer.nat_spec h₄ hl₄ (k := m.nr_init_blocks) (by omega)
  have h₆ := (h₅.new_line (Writer.nat_open hw₅)).end_line.1
  have hfit : Fit ((finish m s).rest.take (finish m s).nr_w_out) := by
    rintro ⟨b, w, c⟩ ht
    rw [hrest] at ht
    obtain ⟨hb, hc, hw⟩ := transition_bounds hm hrange hf (List.mem_of_mem_take ht)
    have hbk := hb.2
    have hck := hc.2
    exact ⟨show b < 10 ^ 20 by omega, show w.natAbs < 10 ^ 20 by omega, show c < 10 ^ 20 by omega⟩
  obtain ⟨w₇, hw₇, h₇, hl₇⟩ := write_w_transitions_spec hgiving (by rw [hrest, hnr]) hfit h₆
    hl₅.new_line.end_line
  obtain ⟨-, -, -, hsame⟩ := give_w_transitions_spec hgiving
    (show (finish m s).nr_w_out ≤ (finish m s).rest.length by rw [hrest, hnr])
  obtain ⟨h₈, hend₈⟩ := h₇.end_line
  rw [hsame] at hw₇
  have hone : 1 ≤ m.nr_init_blocks := by
    have hn := Nat.one_le_iff_ne_zero.2 hr.1
    exact (hm.sets 1 ⟨le_rfl, hn⟩).1.trans (hm.sets 1 ⟨le_rfl, hn⟩).2
  obtain ⟨w', ls, hw', hlen, hls, h', hl', hend'⟩ := write_blocks_spec
    (o := { finish m s with
      heads := (give_w_transitions (finish m s).nr_w_out (finish m s)).2.heads
      given_bl := (give_w_transitions (finish m s).nr_w_out (finish m s)).2.given_bl })
    hm hr hf rfl (show m.nr_states < 10 ^ 20 by omega) hfuel (by decide)
    (show 2 + (m.nr_init_blocks - 1) ≤ m.nr_init_blocks + 1 by omega) h₈ hl₇.end_line hend₈
  refine ⟨w', ls, ?_, hlen, hls, hl', hend', ?_⟩
  · have hm' : (finish m s).m = m := rfl
    have hB' : (finish m s).B = s.B := rfl
    rw [← hnr] at hw₄
    simp only [MDP_write, hm', hB', hw₁, hw₂, hw₃, hw₄, hw₅, hw₇, Option.bind_eq_bind,
      Option.bind_some]
    exact hw'
  · rw [hrest, hnr, List.take_length] at h'
    simpa using h'

end Sizes

/-! ## What is read -/

section Back

variable {σ : Type} {rd : Reader σ} {s : σ} {k : ℕ} {rest : List ℤ}

/-- The transitions are read back. -/
theorem read_w_transitions_ints (hk : k < 2 ^ 31) {l : List (ℕ × ℤ × ℕ)}
    (hl : ∀ t ∈ l, Num k t.1 ∧ Num k t.2.2 ∧ t.2.1.natAbs < 2 ^ 31) {max1 w_cnt : ℕ}
    (hmax : w_cnt + l.length < max1) (h : HandsOutInts rd s (transitionNumbers l ++ rest)) :
    ∃ s', read_w_transitions rd k max1 l.length w_cnt s =
      some (l.map fun t => ⟨t.1, t.2.1, t.2.2⟩, s') ∧ HandsOutInts rd s' rest := by
  induction l generalizing s w_cnt with
  | nil => exact ⟨s, rfl, by simpa [transitionNumbers] using h⟩
  | cons t l ih =>
    obtain ⟨⟨⟨hb₁, hb₂⟩, ⟨hc₁, hc₂⟩, hw⟩, hl'⟩ := List.forall_mem_cons.1 hl
    have hgood : ∀ x, 1 ≤ x → x ≤ k → ¬ bad_st k x := fun x _ _ => by unfold bad_st; omega
    rw [List.length_cons] at hmax
    obtain ⟨s₁, h₁, -, s₂, -, h₂, s₃, h₃, -, hrest⟩ := h
    obtain ⟨s', hs', hrest'⟩ := ih hl' (show w_cnt + 1 + l.length < max1 by omega) hrest
    refine ⟨s', ?_, hrest'⟩
    simp only [List.length_cons, read_w_transitions, h₁ t.1 rfl (by omega), h₂ hw,
      h₃ t.2.2 rfl (by omega), hs', if_neg (hgood _ hb₁ hb₂), if_neg (hgood _ hc₁ hc₂),
      if_neg (show ¬ max1 ≤ w_cnt + 1 by omega), Option.bind_eq_bind, Option.bind_some]
    rfl

/-- The states of a block are read back. -/
theorem read_block_ints (hk : k < 2 ^ 31) {bl : ℕ} {l : List ℕ} (hl : ∀ c ∈ l, Num k c)
    (hnd : l.Nodup) {sets : Arr ℕ} (hsets : ∀ c ∈ l, sets c = 1) {fuel : ℕ} (hfuel : l.length < fuel)
    (h : HandsOutInts rd s (l.map (fun c : ℕ => (c : ℤ)) ++ [0] ++ rest)) :
    ∃ s', read_block rd k bl fuel sets s =
      some (l.foldl (fun (sets : Arr ℕ) st => sets.set st bl) sets, s') ∧
        HandsOutInts rd s' rest := by
  obtain ⟨fuel, rfl⟩ : ∃ f, fuel = f + 1 := ⟨fuel - 1, by omega⟩
  induction l generalizing s sets fuel with
  | nil =>
    obtain ⟨s₁, h₁, -, hrest⟩ := h
    refine ⟨s₁, ?_, hrest⟩
    rw [read_block, h₁ 0 rfl (by decide)]
    rfl
  | cons c l ih =>
    obtain ⟨⟨hc₁, hc₂⟩, hl'⟩ := List.forall_mem_cons.1 hl
    obtain ⟨hone, hsets'⟩ := List.forall_mem_cons.1 hsets
    obtain ⟨hcl, hnd'⟩ := List.nodup_cons.1 hnd
    obtain ⟨s₁, h₁, -, hrest⟩ := h
    obtain ⟨fuel, rfl⟩ : ∃ f, fuel = f + 1 := ⟨fuel - 1, by rw [List.length_cons] at hfuel; omega⟩
    have hnext : ∀ d ∈ l, sets.set c bl d = 1 := by
      intro d hd
      have hdc : d ≠ c := fun heq => hcl (heq ▸ hd)
      rw [Arr.set_of_ne _ _ hdc, hsets' d hd]
    obtain ⟨s', hs', hrest'⟩ := ih hl' hnd' hnext hrest fuel
      (by rw [List.length_cons] at hfuel; omega)
    have hsize : ¬ make_size k ≤ c := by
      rw [make_size, nodeT_of_lt (by omega)]
      omega
    refine ⟨s', ?_, hrest'⟩
    rw [read_block, h₁ c rfl (by omega), Option.bind_eq_bind, Option.bind_some]
    dsimp only
    rw [if_neg (by omega), if_neg (by omega), if_neg hsize, if_neg (not_not.2 hone)]
    exact hs'

variable {m : MDP} {B : RefinablePartition}

/-- The initial block of a final block. -/
def initialOf (m : MDP) (B : RefinablePartition) (c : ℕ) : ℕ := m.sets (B.elems (B.begins c))

theorem initialOf_eq (hf : Final m B) {c st : ℕ} (hst : Num m.nr_states st) (hc : B.sets st = c) :
    initialOf m B c = m.sets st := by
  have hnum : Num B.nr_sets c := hc ▸ hf.ok.set st hst
  have hseg := (hf.ok.segment c hnum).2.1
  have hel := hf.ok.elem _ (hf.ok.place hnum le_rfl hseg)
  exact hf.within.refines _ st hel hst ((hf.ok.sets_elems hnum le_rfl hseg).trans hc.symm)

theorem BlockList.mem_iff (hf : Final m B) {bl : ℕ} {l : List ℕ} (h : BlockList m B bl l) (c : ℕ) :
    c ∈ l ↔ Num B.nr_sets c ∧ initialOf m B c = bl := by
  rw [h.mem]
  refine and_congr_right fun hc => ⟨fun hall => ?_, fun heq st hst hset => ?_⟩
  · obtain ⟨u, hu, hub⟩ := hf.ok.exists_mem hc
    rw [initialOf_eq hf hu hub]
    exact hall u hu hub
  · rw [← initialOf_eq hf hst hset, heq]

/-- The blocks are read back. -/
theorem read_blocks_ints (hf : Final m B) (hk : B.nr_sets < 2 ^ 31) {fuel : ℕ}
    (hfuel : B.nr_sets < fuel) {ls : List (List ℕ)} {bl : ℕ} (hbl : 1 < bl)
    (hls : BlockLists m B bl ls) {sets : Arr ℕ}
    (hsets : ∀ c, Num B.nr_sets c →
      sets c = if initialOf m B c < bl then initialOf m B c else 1)
    (h : HandsOutInts rd s (blockNumbers ls ++ rest)) :
    ∃ sets' s', read_blocks rd B.nr_sets fuel ls.length bl sets s = some (sets', s') ∧
      ∀ c, Num B.nr_sets c →
        sets' c = if initialOf m B c < bl + ls.length then initialOf m B c else 1 := by
  induction ls generalizing s bl sets with
  | nil => exact ⟨sets, s, rfl, by simpa using hsets⟩
  | cons l ls ih =>
    obtain ⟨hlist, hls'⟩ := hls
    have hmem := hlist.mem_iff hf
    have hrest : HandsOutInts rd s (l.map (fun c : ℕ => (c : ℤ)) ++ [0] ++
        (blockNumbers ls ++ rest)) := by
      simpa [blockNumbers] using h
    have hone : ∀ c ∈ l, sets c = 1 := by
      intro c hc
      obtain ⟨hnum, hinit⟩ := (hmem c).1 hc
      rw [hsets c hnum, if_neg (by omega)]
    obtain ⟨s₁, hs₁, h₁⟩ := read_block_ints hk (fun c hc => ((hmem c).1 hc).1) hlist.nodup hone
      (hlist.length_lt hfuel) hrest
    have hsets' : ∀ c, Num B.nr_sets c →
        l.foldl (fun (sets : Arr ℕ) st => sets.set st bl) sets c =
          if initialOf m B c < bl + 1 then initialOf m B c else 1 := by
      intro c hc
      rw [Arr.foldl_set_const, hsets c hc]
      by_cases hcl : c ∈ l
      · have hinit := ((hmem c).1 hcl).2
        rw [if_pos hcl, if_pos (by omega), hinit]
      · have hinit : initialOf m B c ≠ bl := fun heq => hcl ((hmem c).2 ⟨hc, heq⟩)
        rw [if_neg hcl]
        exact if_congr (by omega) rfl rfl
    obtain ⟨sets', s', hs', hall⟩ := ih (by omega) hls' hsets' h₁
    refine ⟨sets', s', ?_, fun c hc => ?_⟩
    · rw [List.length_cons, read_blocks, hs₁]
      exact hs'
    · rw [hall c hc, List.length_cons]
      exact if_congr (by omega) rfl rfl

/-- The result as an input: the blocks are the states. -/
def resultMDP (m : MDP) (B : RefinablePartition) (l : List (ℕ × ℤ × ℕ)) (sets : Arr ℕ) : MDP where
  nr_states := B.nr_sets
  nr_labels := m.nr_labels
  nr_init_blocks := m.nr_init_blocks
  l_trans := []
  w_trans := l.map fun t => ⟨t.1, t.2.1, t.2.2⟩
  sets := sets

/-- **What `MDP_read` makes of such numbers.** -/
theorem MDP_read_ints (hf : Final m B) (hk : 1 ≤ B.nr_sets) (hk' : B.nr_sets < 2 ^ 31)
    (hlabels : m.nr_labels < 2 ^ 32) (hK : 1 ≤ m.nr_init_blocks) (hK' : m.nr_init_blocks ≤ B.nr_sets)
    {l : List (ℕ × ℤ × ℕ)} (hlen : l.length ≤ B.nr_sets * B.nr_sets) (hlen' : l.length < 2 ^ 31)
    (hl : ∀ t ∈ l, Num B.nr_sets t.1 ∧ Num B.nr_sets t.2.2 ∧ t.2.1.natAbs < 2 ^ 31)
    {ls : List (List ℕ)} (hls : BlockLists m B 2 ls) (hcount : ls.length = m.nr_init_blocks - 1)
    (hinit : ∀ c, Num B.nr_sets c → Num m.nr_init_blocks (initialOf m B c)) {fuel : ℕ}
    (hfuel : B.nr_sets < fuel)
    (h : HandsOutInts rd s ([(B.nr_sets : ℤ), (m.nr_labels : ℤ), 0, (l.length : ℤ),
      (m.nr_init_blocks : ℤ)] ++ transitionNumbers l ++ blockNumbers ls)) :
    ∃ sets : Arr ℕ, (∀ c, Num B.nr_sets c → sets c = initialOf m B c) ∧
      MDP_read rd fuel s = some (resultMDP m B l sets) := by
  rw [List.append_assoc] at h
  obtain ⟨s₁, h₁, -, s₂, h₂, -, s₃, h₃, -, s₄, h₄, -, s₅, h₅, -, hrest⟩ := h
  have hrest : HandsOutInts rd s₅ (transitionNumbers l ++ (blockNumbers ls ++ [])) := by
    rwa [List.append_nil]
  have hsize : 0 + l.length < make_size l.length := by
    rw [make_size, nodeT_of_lt (by omega)]
    omega
  obtain ⟨s₆, h₆, hrest₆⟩ := read_w_transitions_ints hk' hl hsize hrest
  have hsets : ∀ c, Num B.nr_sets c →
      (List.Ico 1 (B.nr_sets + 1)).foldl (fun (sets : Arr ℕ) st => sets.set st 1) (.const 0) c =
        if initialOf m B c < 2 then initialOf m B c else 1 := by
    intro c hc
    have hpos := (hinit c hc).1
    rw [first_block hc]
    split_ifs <;> omega
  obtain ⟨sets, s₇, h₇, hall⟩ := read_blocks_ints hf hk' hfuel (by decide) hls hsets hrest₆
  refine ⟨sets, fun c hc => ?_, ?_⟩
  · have hle := (hinit c hc).2
    rw [hall c hc, if_pos (by omega)]
  · have hfew : ¬ (0 < l.length ∧
        (B.nr_sets = 0 ∨ B.nr_sets ≤ (l.length - 1) / B.nr_sets)) := by
      rintro ⟨hpos, hz | hdiv⟩
      · omega
      · have := (Nat.le_div_iff_mul_le hk).1 hdiv
        omega
    have hblocks : ¬ (B.nr_sets < m.nr_init_blocks ∨
        B.nr_sets ≠ 0 ∧ m.nr_init_blocks = 0) := by omega
    rw [hcount] at h₇
    simp only [MDP_read, h₁ _ rfl (by omega), h₂ _ rfl hlabels, h₃ 0 rfl (by decide),
      h₄ _ rfl (by omega), h₅ _ rfl (by omega), Option.bind_eq_bind, Option.bind_some, if_neg hfew,
      if_neg hblocks]
    rw [if_neg fun h => absurd h.1 (lt_irrefl 0), if_neg (show ¬ nr_l_max1 ≤ 0 by decide)]
    simp only [read_l_transitions, Option.bind_some, List.not_mem_nil, false_and, exists_false,
      and_false, if_false, h₆, h₇]
    rfl

end Back

end Rbsc.PartRef
