import Rbsc.PartRef.Coarsest

/-!
# `part_ref`: the result

The part of `minimize` behind the main loop and the functions that hand out the result.  The main
loop never ends when there are labelled transitions (`main_loop_ends_iff`), so the result has none,
and neither their number nor `give_l_transition` is here.  `B.mids` is used again, for flags; it is
an array of its own here.

* `give_w_transition` gives the weights between the final blocks that are not zero, each once
  (`give_w_transitions_spec`, `mem_transitions`);
* `give_block_first` and `give_block_next` give the final blocks of an initial block, each once
  (`give_block_spec`).
-/

namespace Rbsc.PartRef

open Arrays ForLoop RefinablePartition

/-! ## The model -/

/-- The heads that a scan has met: `touched_sets` from the top, the flags and the sums. -/
structure Heads where
  touched_sets : List ℕ
  mids : Arr ℕ
  ww : Arr ℤ

/-- One transition of the scan. -/
def add_head (m : MDP) (B : RefinablePartition) (h : Heads) (tr : ℕ) : Heads :=
  let bl2 := B.sets (m.w_heads tr)
  if h.mids bl2 = 0 then
    { touched_sets := bl2 :: h.touched_sets
      mids := h.mids.set bl2 1
      ww := h.ww.set bl2 (m.w_weights tr) }
  else { h with ww := h.ww.set bl2 (intT (h.ww bl2 + m.w_weights tr)) }

/-- The scan of the output transitions of the first state of a block. -/
def scan_heads (m : MDP) (B : RefinablePartition) (adj_w : Adjacent) (h : Heads) (bl1 : ℕ) :
    Heads :=
  (adj_w.of (B.elems (B.begins bl1))).foldl (add_head m B) h

/-- The loop that empties `touched_sets` and counts the weights other than zero. -/
def count_heads (ww : Arr ℤ) : List ℕ → Arr ℕ → ℕ → Arr ℕ × ℕ
  | [], mids, nr_w_out => (mids, nr_w_out)
  | bl2 :: touched_sets, mids, nr_w_out =>
    count_heads ww touched_sets (mids.set bl2 0)
      (if ww bl2 ≠ MDP_zero_weight then nr_w_out + 1 else nr_w_out)

/-- The body of the loop that computes `nr_w_out`. -/
def count_step (m : MDP) (B : RefinablePartition) (adj_w : Adjacent) (p : Heads × ℕ) (bl1 : ℕ) :
    Heads × ℕ :=
  let h := scan_heads m B adj_w p.1 bl1
  let r := count_heads h.ww h.touched_sets h.mids p.2
  ({ touched_sets := [], mids := r.1, ww := h.ww }, r.2)

/-- What `minimize` leaves for the functions that give the result, with their own variables. -/
structure Minimized where
  m : MDP
  B : RefinablePartition
  init_block_borders : Arr ℕ
  adj_w : Adjacent
  heads : Heads
  nr_w_out : ℕ
  given_bl : ℕ
  gb_limit : ℕ
  gb_now : ℕ

/-- The borders of the initial blocks in `elems`. -/
def init_block_borders (m : MDP) : Arr ℕ :=
  (List.Ico 1 (m.nr_init_blocks + 1)).foldl (fun a bl => a.set bl ((initial m).B.ends bl))
    ((Arr.const 0).set 0 1)

/-- The part of `minimize` behind the main loop. -/
def finish (m : MDP) (s : State) : Minimized :=
  let adj_w := make_adjacent_tr_set m.nr_states m.nr_w_trans m.w_tails
  let mids := (List.Ico 1 (s.B.nr_sets + 1)).foldl (fun (a : Arr ℕ) bl => a.set bl 0) s.B.mids
  let r := (List.Ico 1 (s.B.nr_sets + 1)).foldl (count_step m s.B adj_w)
    ({ touched_sets := [], mids := mids, ww := s.ww }, 0)
  { m := m
    B := s.B
    init_block_borders := init_block_borders m
    adj_w := adj_w
    heads := r.1
    nr_w_out := r.2
    given_bl := 0
    gb_limit := 0
    gb_now := 0 }

/-- `minimize`, with what it leaves.  The program is left with an error when some initial block is
empty. -/
def minimized (m : MDP) (fuel : ℕ) : Option Minimized :=
  if m.nr_states = 0 then
    some
      { m := m
        B := ⟨0, .const 0, .const 0, .const 0, .const 0, .const 0, .const 0⟩
        init_block_borders := .const 0
        adj_w := ⟨.const 0, .const 0⟩
        heads := ⟨[], .const 0, .const 0⟩
        nr_w_out := 0
        given_bl := 0
        gb_limit := 0
        gb_now := 0 }
  else if (initial m).B.nr_sets ≠ m.nr_init_blocks then none
  else (main_loop (input m) fuel (initial m)).map (finish m)

/-- What is printed is the number of blocks. -/
theorem minimize_eq {m : MDP} (hn : m.nr_states ≠ 0) (fuel : ℕ) :
    minimize m fuel = (minimized m fuel).map fun o => o.B.nr_sets := by
  unfold minimize minimized
  rw [if_neg hn, if_neg hn]
  split_ifs
  · rfl
  · rw [Option.map_map]
    rfl

namespace Minimized

variable (o : Minimized)

/-- The inner loop of `give_w_transition`: down to a head with a weight other than zero. -/
def take_head (ww : Arr ℤ) : List ℕ → Arr ℕ → Option ℕ × List ℕ × Arr ℕ
  | [], mids => (none, [], mids)
  | bl2 :: touched_sets, mids =>
    if ww bl2 ≠ MDP_zero_weight then (some bl2, touched_sets, mids.set bl2 0)
    else take_head ww touched_sets (mids.set bl2 0)

/-- The transitions of the next block are computed. -/
def next_block : Minimized :=
  { o with
    given_bl := o.given_bl + 1
    heads := scan_heads o.m o.B o.adj_w o.heads (o.given_bl + 1) }

/-- A try to return a computed transition. -/
def take : Option (ℕ × ℤ × ℕ) × Minimized :=
  let r := take_head o.heads.ww o.heads.touched_sets o.heads.mids
  (r.1.map fun bl2 => (o.given_bl, o.heads.ww bl2, bl2),
    { o with heads := { o.heads with touched_sets := r.2.1, mids := r.2.2 } })

/-- The loop of `give_w_transition`.  Every turn but the first takes a further block. -/
def give_w_loop : ℕ → Minimized → (ℕ × ℤ × ℕ) × Minimized
  | 0, o => ((0, MDP_unused_weight, 0), o)
  | fuel + 1, o =>
    if o.heads.touched_sets = [] ∧ o.B.nr_sets ≤ o.given_bl then ((0, MDP_unused_weight, 0), o)
    else
      let o := if o.heads.touched_sets = [] then o.next_block else o
      match o.take with
      | (some t, o) => (t, o)
      | (none, o) => give_w_loop fuel o

/-- `give_w_transition`: tail, weight and head. -/
def give_w_transition : (ℕ × ℤ × ℕ) × Minimized :=
  give_w_loop (o.B.nr_sets - o.given_bl + 2) o

/-- The results of `k` calls of `give_w_transition`. -/
def give_w_transitions : ℕ → Minimized → List (ℕ × ℤ × ℕ) × Minimized
  | 0, o => ([], o)
  | k + 1, o =>
    let r := o.give_w_transition
    let rs := give_w_transitions k r.2
    (r.1 :: rs.1, rs.2)

/-- `give_block_first`. -/
def give_block_first (out_block : ℕ) : Option (ℕ × Minimized) :=
  if out_block < 1 ∨ o.m.nr_init_blocks < out_block then none
  else
    let gb_now := o.B.sets (o.B.elems (o.init_block_borders (out_block - 1)))
    some (gb_now, { o with gb_limit := o.init_block_borders out_block, gb_now := gb_now })

/-- `give_block_next`. -/
def give_block_next : ℕ × Minimized :=
  if o.gb_now = 0 then (0, o)
  else
    let lc := o.B.ends o.gb_now
    if o.gb_limit ≤ lc then (0, o)
    else
      let gb_now := o.B.sets (o.B.elems lc)
      (gb_now, { o with gb_now := gb_now })

/-- The numbers from `st` on that a loop over `give_block_next` gets before the number `0`; it is
given up after `fuel` numbers. -/
def give_blocks : ℕ → ℕ → Minimized → List ℕ × Minimized
  | 0, _, o => ([], o)
  | fuel + 1, st, o =>
    if st = 0 then ([], o)
    else
      let r := o.give_block_next
      let rs := give_blocks fuel r.1 r.2
      (st :: rs.1, rs.2)

/-- `which_block`. -/
def which_block (st : ℕ) : Option ℕ :=
  if bad_st o.m.nr_states st then none else some (o.B.sets st)

end Minimized

/-! ## One scan -/

section Scan

variable {m : MDP} {B : RefinablePartition} {k : ℕ} {l : List ℕ} {h : Heads}

/-- The blocks that the transitions of `l` lead to, the one that is met last first. -/
def metHeads (m : MDP) (B : RefinablePartition) (l : List ℕ) : List ℕ :=
  (l.map fun tr => B.sets (m.w_heads tr)).reverse.dedup

/-- The weight of the transitions of `l` into a block. -/
def headSum (m : MDP) (B : RefinablePartition) (l : List ℕ) (c : ℕ) : ℤ :=
  ((l.filter fun tr => B.sets (m.w_heads tr) = c).map m.w_weights).sum

theorem metHeads_append (tr : ℕ) : metHeads m B (l ++ [tr]) =
    if B.sets (m.w_heads tr) ∈ metHeads m B l then metHeads m B l
    else B.sets (m.w_heads tr) :: metHeads m B l := by
  unfold metHeads
  rw [List.map_append, List.reverse_append, List.map_singleton, List.reverse_singleton,
    List.singleton_append]
  split_ifs with hmem
  · exact List.dedup_cons_of_mem (List.mem_dedup.1 hmem)
  · exact List.dedup_cons_of_notMem fun h => hmem (List.mem_dedup.2 h)

theorem mem_metHeads {c : ℕ} : c ∈ metHeads m B l ↔ ∃ tr ∈ l, B.sets (m.w_heads tr) = c := by
  simp [metHeads]

theorem headSum_append (tr c : ℕ) : headSum m B (l ++ [tr]) c =
    headSum m B l c + if B.sets (m.w_heads tr) = c then m.w_weights tr else 0 := by
  unfold headSum
  by_cases hc : B.sets (m.w_heads tr) = c <;> simp [hc]

theorem headSum_of_notMem {c : ℕ} (hc : c ∉ metHeads m B l) : headSum m B l c = 0 := by
  have hnil : (l.filter fun tr => B.sets (m.w_heads tr) = c) = [] := by
    refine List.filter_eq_nil_iff.2 fun tr htr => ?_
    simpa using fun heq => hc (mem_metHeads.2 ⟨tr, htr, heq⟩)
  rw [headSum, hnil]
  rfl

/-- The scan has gone over the transitions `l`. -/
structure Met (k : ℕ) (m : MDP) (B : RefinablePartition) (l : List ℕ) (h : Heads) : Prop where
  stack : h.touched_sets = metHeads m B l
  flag : ∀ c, Num k c → (h.mids c ≠ 0 ↔ c ∈ metHeads m B l)
  sum : ∀ c ∈ metHeads m B l, h.ww c = headSum m B l c

theorem Met.next (hm : Met k m B l h) {tr : ℕ} (htr : Num k (B.sets (m.w_heads tr)))
    (hfit : ∀ c, (headSum m B (l ++ [tr]) c).natAbs < 2 ^ 31) :
    Met k m B (l ++ [tr]) (add_head m B h tr) := by
  have happ := metHeads_append (m := m) (B := B) (l := l) tr
  have hsum := headSum_append (m := m) (B := B) (l := l) tr
  have hflag := hm.flag _ htr
  have hfit := hfit (B.sets (m.w_heads tr))
  unfold add_head
  dsimp only
  generalize B.sets (m.w_heads tr) = bl2 at *
  by_cases hmet : bl2 ∈ metHeads m B l
  · rw [if_neg (hflag.2 hmet)]
    rw [if_pos hmet] at happ
    have hint : intT (h.ww bl2 + m.w_weights tr) = h.ww bl2 + m.w_weights tr := by
      rw [hsum, if_pos rfl] at hfit
      rw [hm.sum _ hmet, intT_of_lt hfit]
    refine ⟨hm.stack.trans happ.symm, fun c hc => happ ▸ hm.flag c hc, fun c hc => ?_⟩
    rw [happ] at hc
    dsimp only
    rw [hint]
    rw [Arr.set_apply, hsum]
    by_cases hcb : c = bl2
    · rw [if_pos hcb, if_pos hcb.symm, hcb, hm.sum _ hmet]
    · rw [if_neg hcb, if_neg (Ne.symm hcb), hm.sum c hc, add_zero]
  · rw [if_pos (not_not.1 fun hne => hmet (hflag.1 hne))]
    rw [if_neg hmet] at happ
    refine ⟨by rw [happ, hm.stack], fun c hc => ?_, fun c hc => ?_⟩
    · rw [happ, List.mem_cons, Arr.set_apply]
      by_cases hcb : c = bl2
      · simp [hcb]
      · simp [hcb, hm.flag c hc]
    · rw [Arr.set_apply, hsum]
      by_cases hcb : c = bl2
      · rw [if_pos hcb, if_pos hcb.symm, hcb, headSum_of_notMem hmet, zero_add]
      · rw [happ] at hc
        rw [if_neg hcb, if_neg (Ne.symm hcb), add_zero]
        exact hm.sum c ((List.mem_cons.1 hc).resolve_left hcb)

/-- **One scan**, from an empty stack without flags. -/
theorem scan_met (hnil : h.touched_sets = []) (hflag : ∀ c, Num k c → h.mids c = 0)
    (hl : ∀ tr ∈ l, Num k (B.sets (m.w_heads tr)))
    (hfit : ∀ l', l' <+: l → ∀ c, (headSum m B l' c).natAbs < 2 ^ 31) :
    Met k m B l (l.foldl (add_head m B) h) := by
  induction l using List.reverseRecOn with
  | nil =>
    refine ⟨hnil, fun c hc => ?_, fun c hc => absurd hc List.not_mem_nil⟩
    exact iff_of_false (not_not.2 (hflag c hc)) List.not_mem_nil
  | append_singleton l tr ih =>
    rw [List.foldl_append, List.foldl_cons, List.foldl_nil]
    have hmet := ih (fun t ht => hl t (List.mem_append_left _ ht))
      fun l' hl' => hfit l' (hl'.trans (List.prefix_append l [tr]))
    exact hmet.next (hl tr (by simp)) (hfit _ (List.prefix_refl _))

end Scan

/-! ## The weighed transitions -/

namespace Minimized

variable {o : Minimized}

/-- The output transitions of the first state of a block. -/
def out (o : Minimized) (b : ℕ) : List ℕ := o.adj_w.of (o.B.elems (o.B.begins b))

/-- The transitions from block `b` to the blocks of a list. -/
def rowOf (b : ℕ) (ww : ℕ → ℤ) (l : List ℕ) : List (ℕ × ℤ × ℕ) :=
  (l.filter fun c => ww c ≠ 0).map fun c => (b, ww c, c)

/-- The transitions of the result from block `b`. -/
def row (o : Minimized) (b : ℕ) : List (ℕ × ℤ × ℕ) :=
  rowOf b (headSum o.m o.B (o.out b)) (metHeads o.m o.B (o.out b))

/-- All transitions of the result. -/
def transitions (o : Minimized) : List (ℕ × ℤ × ℕ) :=
  (List.Ico 1 (o.B.nr_sets + 1)).flatMap o.row

/-- The transitions that have not been given. -/
def rest (o : Minimized) : List (ℕ × ℤ × ℕ) :=
  rowOf o.given_bl o.heads.ww o.heads.touched_sets ++
    (List.Ico (o.given_bl + 1) (o.B.nr_sets + 1)).flatMap o.row

/-- The invariant of the functions that give the transitions. -/
structure Giving (o : Minimized) : Prop where
  heads : ∀ b, Num o.B.nr_sets b → ∀ tr ∈ o.out b, Num o.B.nr_sets (o.B.sets (o.m.w_heads tr))
  /-- No sum of a scan wraps. -/
  fits : ∀ b, Num o.B.nr_sets b → ∀ l, l <+: o.out b → ∀ c,
    (headSum o.m o.B l c).natAbs < 2 ^ 31
  flag : ∀ c, Num o.B.nr_sets c → c ∉ o.heads.touched_sets → o.heads.mids c = 0

/-- Only the variables of `give_w_transition` are other than before. -/
def SameResult (o o' : Minimized) : Prop :=
  o' = { o with heads := o'.heads, given_bl := o'.given_bl }

theorem SameResult.trans {o o' o'' : Minimized} (h : SameResult o o') (h' : SameResult o' o'') :
    SameResult o o'' := by
  unfold SameResult at *
  rw [h', h]

theorem rowOf_congr {b : ℕ} {ww ww' : ℕ → ℤ} {l : List ℕ} (h : ∀ c ∈ l, ww c = ww' c) :
    rowOf b ww l = rowOf b ww' l := by
  unfold rowOf
  rw [List.filter_congr fun c hc => by rw [h c hc]]
  exact List.map_congr_left fun c hc => by rw [h c (List.mem_of_mem_filter hc)]

/-- The transitions of the next block are the next to be given. -/
theorem next_block_rest (h : o.Giving) (hnil : o.heads.touched_sets = [])
    (hlt : o.given_bl < o.B.nr_sets) : o.next_block.Giving ∧ o.next_block.rest = o.rest := by
  have hb : Num o.B.nr_sets (o.given_bl + 1) := ⟨by omega, hlt⟩
  have hmet : Met o.B.nr_sets o.m o.B (o.out (o.given_bl + 1)) o.next_block.heads :=
    scan_met hnil (fun c hc => h.flag c hc (by rw [hnil]; exact List.not_mem_nil)) (h.heads _ hb)
      (h.fits _ hb)
  refine ⟨⟨h.heads, h.fits, fun c hc hcn => ?_⟩, ?_⟩
  · rw [hmet.stack] at hcn
    by_contra hne
    exact hcn ((hmet.flag c hc).1 hne)
  · have hrow : rowOf (o.given_bl + 1) o.next_block.heads.ww o.next_block.heads.touched_sets =
        o.row (o.given_bl + 1) := by
      rw [hmet.stack, row]
      exact rowOf_congr hmet.sum
    have hIco : List.Ico (o.given_bl + 1) (o.B.nr_sets + 1) =
        (o.given_bl + 1) :: List.Ico (o.given_bl + 1 + 1) (o.B.nr_sets + 1) :=
      List.Ico.eq_cons (by omega)
    unfold rest
    rw [hnil, hIco, List.flatMap_cons]
    show rowOf (o.given_bl + 1) o.next_block.heads.ww o.next_block.heads.touched_sets ++ _ = _
    rw [hrow]
    rfl

theorem take_head_spec (ww : Arr ℤ) (b : ℕ) (l : List ℕ) (mids : Arr ℕ) :
    let r := take_head ww l mids
    rowOf b ww l = (r.1.map fun c => (b, ww c, c)).toList ++ rowOf b ww r.2.1 ∧
      (r.1 = none → r.2.1 = []) ∧
      ∀ c, (c ∉ l → mids c = 0) → c ∉ r.2.1 → r.2.2 c = 0 := by
  induction l generalizing mids with
  | nil => exact ⟨rfl, fun _ => rfl, fun c hc hcn => hc hcn⟩
  | cons bl2 l ih =>
    have hflag : ∀ c, (c ∉ bl2 :: l → mids c = 0) → c ∉ l → mids.set bl2 0 c = 0 := by
      intro c hc hcl
      rw [Arr.set_apply]
      split_ifs with hcb
      · rfl
      · exact hc (by simp [hcb, hcl])
    by_cases hw : ww bl2 ≠ MDP_zero_weight
    · have hw' : ww bl2 ≠ 0 := hw
      rw [take_head, if_pos hw]
      refine ⟨?_, fun hr => (Option.some_ne_none _ hr).elim, hflag⟩
      simp [rowOf, hw']
    · have hw' : ww bl2 = 0 := not_not.1 hw
      rw [take_head, if_neg hw]
      obtain ⟨hrow, hend, hmids⟩ := ih (mids.set bl2 0)
      refine ⟨?_, hend, fun c hc => hmids c (hflag c hc)⟩
      rw [← hrow]
      simp [rowOf, hw']

/-- A transition is taken, or the stack gets empty. -/
theorem take_spec (h : o.Giving) : o.take.2.Giving ∧
    o.take.2 = { o with heads := o.take.2.heads } ∧
      o.rest = o.take.1.toList ++ o.take.2.rest ∧
        (o.take.1 = none → o.take.2.heads.touched_sets = []) := by
  obtain ⟨hrow, hend, hmids⟩ :=
    take_head_spec o.heads.ww o.given_bl o.heads.touched_sets o.heads.mids
  refine ⟨⟨h.heads, h.fits, fun c hc => hmids c (h.flag c hc)⟩, rfl, ?_, fun hnone => ?_⟩
  · unfold rest
    rw [hrow, List.append_assoc]
    rfl
  · exact hend (Option.map_eq_none_iff.1 hnone)

/-- The result of a call, and what is left to be given then. -/
structure Given (o : Minimized) (r : (ℕ × ℤ × ℕ) × Minimized) : Prop where
  giving : r.2.Giving
  same : SameResult o r.2
  eq : r.1 = o.rest.headD (0, MDP_unused_weight, 0)
  rest : r.2.rest = o.rest.tail

theorem Given.of_rest {o o' : Minimized} {r : (ℕ × ℤ × ℕ) × Minimized} (hs : SameResult o o')
    (hr : o.rest = o'.rest) (h : o'.Given r) : o.Given r :=
  ⟨h.giving, hs.trans h.same, hr ▸ h.eq, hr ▸ h.rest⟩

theorem give_w_loop_spec {fuel : ℕ} (h : o.Giving)
    (hfuel : o.B.nr_sets - o.given_bl + (if o.heads.touched_sets = [] then 1 else 2) ≤ fuel) :
    o.Given (give_w_loop fuel o) := by
  induction fuel generalizing o with
  | zero => split_ifs at hfuel <;> omega
  | succ fuel ih =>
    rw [give_w_loop]
    by_cases hstop : o.heads.touched_sets = [] ∧ o.B.nr_sets ≤ o.given_bl
    · rw [if_pos hstop]
      have hrest : o.rest = [] := by
        rw [Minimized.rest, hstop.1, List.Ico.eq_nil_of_le (by omega)]
        rfl
      exact ⟨h, rfl, by rw [hrest]; rfl, hrest.trans (by rw [hrest]; rfl)⟩
    · rw [if_neg hstop]
      -- the state with a stack that is not known to be empty
      obtain ⟨o₁, ho₁, hg₁, hs₁, hr₁, hf₁⟩ : ∃ o₁ : Minimized,
          (if o.heads.touched_sets = [] then o.next_block else o) = o₁ ∧ o₁.Giving ∧
            SameResult o o₁ ∧ o₁.rest = o.rest ∧ o₁.B.nr_sets - o₁.given_bl + 1 ≤ fuel := by
        by_cases hnil : o.heads.touched_sets = []
        · have hlt : o.given_bl < o.B.nr_sets := not_le.1 fun hle => hstop ⟨hnil, hle⟩
          obtain ⟨hg, hr⟩ := next_block_rest h hnil hlt
          rw [if_pos hnil] at hfuel ⊢
          refine ⟨_, rfl, hg, rfl, hr, ?_⟩
          show o.B.nr_sets - (o.given_bl + 1) + 1 ≤ fuel
          omega
        · rw [if_neg hnil] at hfuel ⊢
          exact ⟨_, rfl, h, rfl, rfl, by omega⟩
      rw [ho₁]
      dsimp only
      obtain ⟨hg₂, hs₂, hr₂, hend⟩ := take_spec hg₁
      rcases htake : o₁.take with ⟨_ | t, o₂⟩
      all_goals
        rw [htake] at hg₂ hs₂ hr₂ hend
        dsimp only at hg₂ hs₂ hr₂ hend ⊢
        have hsame : SameResult o o₂ := hs₁.trans (by unfold SameResult; rw [hs₂])
      · refine Given.of_rest hsame (hr₁.symm.trans hr₂) (ih hg₂ ?_)
        rw [if_pos (hend rfl), hs₂]
        exact hf₁
      · exact ⟨hg₂, hsame, by rw [← hr₁, hr₂]; rfl, by rw [← hr₁, hr₂]; rfl⟩

/-- **One call** gives the next transition, and a fake one when there is none. -/
theorem give_w_transition_spec (h : o.Giving) : o.Given o.give_w_transition :=
  give_w_loop_spec h (by split_ifs <;> omega)

/-- **Calls in turn.** -/
theorem give_w_transitions_spec (h : o.Giving) {k : ℕ} (hk : k ≤ o.rest.length) :
    (give_w_transitions k o).1 = o.rest.take k ∧ (give_w_transitions k o).2.Giving ∧
      (give_w_transitions k o).2.rest = o.rest.drop k ∧
        SameResult o (give_w_transitions k o).2 := by
  induction k generalizing o with
  | zero => exact ⟨rfl, h, rfl, rfl⟩
  | succ k ih =>
    obtain ⟨hg, hs, heq, hrest⟩ := give_w_transition_spec h
    obtain ⟨t, l, hl⟩ := List.exists_cons_of_length_pos (show 0 < o.rest.length by omega)
    rw [hl] at heq hrest hk ⊢
    rw [List.tail_cons] at hrest
    obtain ⟨h₁, h₂, h₃, h₄⟩ := ih hg (by rw [hrest]; exact Nat.le_of_succ_le_succ hk)
    rw [give_w_transitions]
    dsimp only
    rw [h₁, heq, hrest]
    rw [hrest] at h₃
    exact ⟨rfl, h₂, h₃, hs.trans h₄⟩

end Minimized

/-! ## The number of weighed transitions -/

section Count

open Minimized

variable {m : MDP} {B : RefinablePartition} {adj_w : Adjacent} {k : ℕ}

theorem count_heads_spec (ww : Arr ℤ) (b : ℕ) (l : List ℕ) (mids : Arr ℕ) (nr_w_out : ℕ) :
    (count_heads ww l mids nr_w_out).2 = nr_w_out + (rowOf b ww l).length ∧
      ∀ c, (c ∉ l → mids c = 0) → (count_heads ww l mids nr_w_out).1 c = 0 := by
  induction l generalizing mids nr_w_out with
  | nil => exact ⟨rfl, fun c hc => hc List.not_mem_nil⟩
  | cons bl2 l ih =>
    obtain ⟨hnr, hmids⟩ := ih (mids.set bl2 0)
      (if ww bl2 ≠ MDP_zero_weight then nr_w_out + 1 else nr_w_out)
    refine ⟨?_, fun c hc => hmids c fun hcl => ?_⟩
    · rw [count_heads, hnr]
      by_cases hw : ww bl2 = 0
      · simp [rowOf, hw, MDP_zero_weight]
      · have hw' : ww bl2 ≠ MDP_zero_weight := hw
        simp [rowOf, hw, hw']
        omega
    · rw [Arr.set_apply]
      split_ifs with hcb
      · rfl
      · exact hc (by simp [hcb, hcl])

/-- The rows of the blocks before `b` have been counted. -/
structure Counted (m : MDP) (B : RefinablePartition) (row : ℕ → List (ℕ × ℤ × ℕ)) (b : ℕ)
    (p : Heads × ℕ) : Prop where
  stack : p.1.touched_sets = []
  flag : ∀ c, Num B.nr_sets c → p.1.mids c = 0
  nr : p.2 = ((List.Ico 1 b).flatMap row).length

/-- **One block** is counted. -/
theorem Counted.next {out : ℕ → List ℕ} {b : ℕ} {p : Heads × ℕ}
    (h : Counted m B (fun b => rowOf b (headSum m B (out b)) (metHeads m B (out b))) b p)
    (hout : adj_w.of (B.elems (B.begins b)) = out b) (hb : 1 ≤ b)
    (hheads : ∀ tr ∈ out b, Num B.nr_sets (B.sets (m.w_heads tr)))
    (hfit : ∀ l, l <+: out b → ∀ c, (headSum m B l c).natAbs < 2 ^ 31) :
    Counted m B (fun b => rowOf b (headSum m B (out b)) (metHeads m B (out b))) (b + 1)
      (count_step m B adj_w p b) := by
  have hmet : Met B.nr_sets m B (out b) (scan_heads m B adj_w p.1 b) := by
    unfold scan_heads
    rw [hout]
    exact scan_met h.stack h.flag hheads hfit
  unfold count_step
  dsimp only
  generalize scan_heads m B adj_w p.1 b = q at hmet
  obtain ⟨hnr, hmids⟩ := count_heads_spec q.ww b q.touched_sets q.mids p.2
  refine ⟨rfl, fun c hc => hmids c fun hcn => ?_, ?_⟩
  · rw [hmet.stack] at hcn
    by_contra hne
    exact hcn ((hmet.flag c hc).1 hne)
  · dsimp only
    rw [hnr, h.nr, hmet.stack, rowOf_congr hmet.sum, List.Ico.succ_top hb, List.flatMap_append,
      List.length_append, List.flatMap_singleton]

end Count

/-! ## The result of an input -/

section Result

open Minimized

variable {m : MDP} {s : State} {n b : ℕ}

/-- The first state of a block. -/
theorem first_state {B : RefinablePartition} (h : Ok n B) (hb : Num B.nr_sets b) :
    ∃ u : Fin n, (u : ℕ) + 1 = B.elems (B.begins b) ∧ blockOf n B u = b := by
  have hseg := h.segment b hb
  obtain ⟨u, hu⟩ := exists_state (h.elem _ (h.place hb le_rfl hseg.2.1))
  refine ⟨u, hu, ?_⟩
  unfold blockOf
  rw [hu]
  exact h.sets_elems hb le_rfl hseg.2.1

/-- The output transitions of the first state, by their tails. -/
theorem out_finish (hm : Accepted m) (hf : Final m s.B) (hb : Num s.B.nr_sets b) :
    (finish m s).out b = trsOf m.w_tails (s.B.elems (s.B.begins b)) (m.nr_w_trans + 1) := by
  have hu := hf.ok.elem _ (hf.ok.place hb le_rfl (hf.ok.segment b hb).2.1)
  refine make_adjacent_tr_set_of (fun tr h₁ h₂ => ?_) hu.1 hu.2
  exact (hm.w_ends _ (fromOne_mem ⟨h₁, h₂⟩)).1.2

theorem heads_finish (hm : Accepted m) (hf : Final m s.B) (hb : Num s.B.nr_sets b) :
    ∀ tr ∈ (finish m s).out b, Num s.B.nr_sets (s.B.sets (m.w_heads tr)) := by
  intro tr htr
  rw [out_finish hm hf hb, trsOf, List.mem_filter, List.Ico.mem] at htr
  exact hf.ok.set _ (hm.w_ends _ (fromOne_mem ⟨htr.1.1, Nat.lt_succ_iff.1 htr.1.2⟩)).2

/-- The sums of the scan are sums of weights from one state. -/
theorem fits_finish (hm : Accepted m) (hfit : SumsFit m) (hf : Final m s.B)
    (hb : Num s.B.nr_sets b) {l : List ℕ} (hl : l <+: (finish m s).out b) (c : ℕ) :
    (headSum m s.B l c).natAbs < 2 ^ 31 := by
  rw [out_finish hm hf hb] at hl
  have hmem : ∀ tr ∈ l, Num m.nr_w_trans tr ∧ m.w_tails tr = s.B.elems (s.B.begins b) := by
    intro tr htr
    have htr' := hl.subset htr
    rw [trsOf, List.mem_filter, List.Ico.mem, decide_eq_true_eq] at htr'
    exact ⟨⟨htr'.1.1, Nat.lt_succ_iff.1 htr'.1.2⟩, htr'.2⟩
  have hsum : headSum m s.B l c = sumFrom m (l.filter fun tr => s.B.sets (m.w_heads tr) = c)
      (s.B.elems (s.B.begins b)) := by
    have hall : (l.filter fun tr => s.B.sets (m.w_heads tr) = c).filter
        (fun tr => m.w_tails tr = s.B.elems (s.B.begins b)) =
          l.filter fun tr => s.B.sets (m.w_heads tr) = c :=
      List.filter_eq_self.2 fun tr htr => decide_eq_true (hmem tr (List.mem_of_mem_filter htr)).2
    rw [sumFrom, hall]
    rfl
  have hnd : l.Nodup := ((List.Ico.nodup _ _).filter _).sublist hl.sublist
  rw [hsum]
  exact hfit _ (hnd.filter _) (fun tr htr => (hmem tr (List.mem_of_mem_filter htr)).1) _

/-- **What `minimize` leaves** for `give_w_transition`: all transitions, and their number. -/
theorem finish_giving (hm : Accepted m) (hfit : SumsFit m) (hf : Final m s.B) :
    (finish m s).Giving ∧ (finish m s).rest = (finish m s).transitions ∧
      (finish m s).nr_w_out = (finish m s).transitions.length := by
  have hloop : Counted m s.B (finish m s).row (s.B.nr_sets + 1)
      ((finish m s).heads, (finish m s).nr_w_out) := by
    refine foldl_Ico (P := Counted m s.B (finish m s).row) (by omega) ⟨rfl, fun c hc => ?_, ?_⟩
      fun b p hlo hhi h => ?_
    · rw [Arr.foldl_set_const, if_pos (List.Ico.mem.2 ⟨hc.1, Nat.lt_succ_of_le hc.2⟩)]
    · simp
    · exact h.next rfl hlo (heads_finish hm hf ⟨hlo, Nat.lt_succ_iff.1 hhi⟩)
        fun l hl c => fits_finish hm hfit hf ⟨hlo, Nat.lt_succ_iff.1 hhi⟩ hl c
  refine ⟨⟨fun b hb => heads_finish hm hf hb,
    fun b hb l hl c => fits_finish hm hfit hf hb hl c, fun c hc _ => hloop.flag c hc⟩, ?_, hloop.nr⟩
  have hstack : (finish m s).heads.touched_sets = [] := hloop.stack
  unfold rest
  rw [hstack]
  rfl

/-- The sums of the first state are its weights into the blocks. -/
theorem headSum_trsOf (hm : Accepted m) (B : RefinablePartition) (u : Fin m.nr_states) (c : ℕ) :
    headSum m B (trsOf m.w_tails (u + 1) (m.nr_w_trans + 1)) c =
      Splitter.weightInto (m.W m.nr_states) (Splitter.block (blockOf m.nr_states B) c) u := by
  classical
  have hsum : headSum m B (trsOf m.w_tails (u + 1) (m.nr_w_trans + 1)) c =
      ((m.w_trans.filter fun t => B.sets t.head = c ∧ t.tail = (u : ℕ) + 1).map
        WTransition.weight).sum := by
    unfold headSum trsOf
    rw [List.filter_filter]
    conv_rhs => rw [← map_fromOne m.w_trans]
    rw [List.filter_map, List.map_map]
    congr 2
    refine List.filter_congr fun tr _ => ?_
    rw [Function.comp_apply, Bool.decide_and]
    rfl
  rw [hsum, sum_filter_heads (fun t ht => (hm.w_ends t ht).2) (fun st => B.sets st = c)]
  unfold Splitter.weightInto
  refine Finset.sum_congr ?_ fun y _ => rfl
  ext y
  simp [blockOf]

/-- States of one final block have the same weights into the final blocks. -/
theorem Final.same_weight {B : RefinablePartition} (hf : Final m B) {c : ℕ} (hc : Num B.nr_sets c)
    {u v : Fin m.nr_states} (huv : blockOf m.nr_states B u = blockOf m.nr_states B v) :
    Splitter.weightInto (m.W m.nr_states) (Splitter.block (blockOf m.nr_states B) c) u =
      Splitter.weightInto (m.W m.nr_states) (Splitter.block (blockOf m.nr_states B) c) v := by
  obtain ⟨x, -, rfl⟩ := first_state hf.ok hc
  rw [Splitter.weightInto_block, Splitter.weightInto_block]
  have hst : Lumping.Stable (m.W m.nr_states) (Setoid.ker (blockOf m.nr_states B)) := by
    rw [hf.coarsest]
    exact Lumping.coarsest_stable _ _
  exact hst u v huv x

/-- **The transitions of the result**: the weights between final blocks that are not zero. -/
theorem mem_transitions (hm : Accepted m) (hf : Final m s.B) {c : ℕ} {w : ℤ} :
    (b, w, c) ∈ (finish m s).transitions ↔
      Num s.B.nr_sets b ∧ Num s.B.nr_sets c ∧ w ≠ 0 ∧
        ∀ u, blockOf m.nr_states s.B u = b → Splitter.weightInto (m.W m.nr_states)
          (Splitter.block (blockOf m.nr_states s.B) c) u = w := by
  have hrow : ∀ {u : Fin m.nr_states}, (u : ℕ) + 1 = s.B.elems (s.B.begins b) →
      Num s.B.nr_sets b → ((b, w, c) ∈ (finish m s).row b ↔
        Num s.B.nr_sets c ∧ w ≠ 0 ∧ Splitter.weightInto (m.W m.nr_states)
          (Splitter.block (blockOf m.nr_states s.B) c) u = w) := by
    intro u hu hb
    have hheads := heads_finish hm hf hb
    rw [row, rowOf]
    rw [out_finish hm hf hb, ← hu] at hheads ⊢
    have hsum := headSum_trsOf hm s.B u
    show (b, w, c) ∈ ((metHeads m s.B _).filter fun c => headSum m s.B _ c ≠ 0).map _ ↔ _
    generalize trsOf m.w_tails (u + 1) (m.nr_w_trans + 1) = l at hheads hsum
    rw [List.mem_map, ← hsum]
    constructor
    · rintro ⟨c', hc', heq⟩
      obtain rfl : c' = c := congrArg (fun t : ℕ × ℤ × ℕ => t.2.2) heq
      obtain rfl : headSum m s.B l c' = w := congrArg (fun t : ℕ × ℤ × ℕ => t.2.1) heq
      obtain ⟨hmet, hne⟩ := List.mem_filter.1 hc'
      obtain ⟨tr, htr, rfl⟩ := mem_metHeads.1 hmet
      exact ⟨hheads tr htr, by simpa using hne, rfl⟩
    · rintro ⟨-, hne, rfl⟩
      refine ⟨c, List.mem_filter.2 ⟨?_, by simpa using hne⟩, rfl⟩
      by_contra hmet
      exact hne (headSum_of_notMem hmet)
  have hmem : (b, w, c) ∈ (finish m s).transitions ↔
      Num s.B.nr_sets b ∧ (b, w, c) ∈ (finish m s).row b := by
    unfold transitions
    rw [List.mem_flatMap]
    constructor
    · rintro ⟨b', hb', hmem⟩
      obtain ⟨c', -, heq⟩ := List.mem_map.1 hmem
      obtain rfl : b' = b := congrArg Prod.fst heq
      exact ⟨⟨(List.Ico.mem.1 hb').1, Nat.lt_succ_iff.1 (List.Ico.mem.1 hb').2⟩, hmem⟩
    · rintro ⟨hb, hmem⟩
      exact ⟨b, List.Ico.mem.2 ⟨hb.1, Nat.lt_succ_of_le hb.2⟩, hmem⟩
  rw [hmem]
  refine and_congr_right fun hb => ?_
  obtain ⟨u, hu, hub⟩ := first_state hf.ok hb
  rw [hrow hu hb]
  refine and_congr_right fun hc => and_congr_right fun _ => ⟨fun hw v hvb => ?_, fun h => h u hub⟩
  rw [hf.same_weight hc (hvb.trans hub.symm), hw]

/-- No two transitions of the result have the same ends. -/
theorem nodup_transitions : ((finish m s).transitions.map fun t => (t.1, t.2.2)).Nodup := by
  have hrow : ∀ b, ((finish m s).row b).map (fun t => (t.1, t.2.2)) =
      ((metHeads m s.B ((finish m s).out b)).filter fun c =>
        headSum m s.B ((finish m s).out b) c ≠ 0).map fun c => (b, c) := by
    intro b
    rw [row, rowOf, List.map_map]
    rfl
  rw [transitions, List.map_flatMap, List.nodup_flatMap]
  refine ⟨fun b _ => ?_, ?_⟩
  · rw [hrow]
    refine List.Nodup.map (fun c c' h => congrArg Prod.snd h) ?_
    exact (List.nodup_dedup _).filter _
  · refine (List.Ico.nodup _ _).imp fun {b b'} hne => ?_
    rw [Function.onFun, List.disjoint_left, hrow, hrow]
    intro p hp hp'
    obtain ⟨c, -, rfl⟩ := List.mem_map.1 hp
    obtain ⟨c', -, heq⟩ := List.mem_map.1 hp'
    exact hne (congrArg Prod.fst heq).symm

/-! ## The final blocks of an initial block -/

/-- The segments of the initial blocks stand behind each other. -/
theorem initial_segments (hm : Accepted m) (hlt : m.nr_states < 2 ^ 31) (h : ReachesLoop m) :
    (initial m).B.begins 1 = 1 ∧ ∀ bl, 1 ≤ bl → bl < m.nr_init_blocks →
      (initial m).B.ends bl = (initial m).B.begins (bl + 1) := by
  have hn : 1 ≤ m.nr_states := Nat.one_le_iff_ne_zero.2 h.1
  have hinv := initial_borders hn hlt hm.sets
  have hs := initial_elems_sorted hlt m.sets
  have hnr : (borders m.nr_states m.sets (initial_elems m.nr_states m.sets)).nr_sets =
      m.nr_init_blocks := h.2
  have hlast := (hm.sets _ (hs.elem m.nr_states ⟨hn, le_rfl⟩)).2
  have hgap := hinv.eq_iff.1 (le_antisymm hinv.le (hnr ▸ hlast))
  have hbor := hinv.bordered hgap
  constructor
  · have hle := hbor.begin_le 1 ⟨le_rfl, hn⟩
    rw [hgap.1] at hle
    have hpos := (hm.sets _ (hs.elem 1 ⟨le_rfl, hn⟩))
    rw [hgap.1] at hpos
    exact le_antisymm hle (hbor.block 1 (hnr ▸ hpos)).1.1
  · intro bl h₁ h₂
    rw [← hnr] at h₂
    have hset : (initial m).B.ends bl =
        (borders m.nr_states m.sets (initial_elems m.nr_states m.sets)).ends bl :=
      Arr.set_of_ne _ _ h₂.ne
    rw [hset, hbor.last bl h₁ h₂]
    rfl

theorem init_block_borders_spec (hm : Accepted m) (hlt : m.nr_states < 2 ^ 31)
    (h : ReachesLoop m) {bl : ℕ} (hbl : Num m.nr_init_blocks bl) :
    init_block_borders m (bl - 1) = (initial m).B.begins bl ∧
      init_block_borders m bl = (initial m).B.ends bl := by
  have hfold : ∀ j, init_block_borders m j = if 1 ≤ j ∧ j < m.nr_init_blocks + 1 then
      (initial m).B.ends j else (Arr.const 0).set 0 1 j := by
    refine foldl_Ico (P := fun i (a : Arr ℕ) => ∀ j, a j = if 1 ≤ j ∧ j < i then
      (initial m).B.ends j else (Arr.const 0).set 0 1 j) (by omega) (fun j => ?_)
      fun i a h₁ h₂ ih j => ?_
    · rw [if_neg (by omega)]
    · rw [Arr.set_apply, ih j]
      by_cases hji : j = i
      · rw [if_pos hji, if_pos (by omega), hji]
      · rw [if_neg hji]
        exact if_congr (by omega) rfl rfl
  obtain ⟨h₁, h₂⟩ := hbl
  obtain ⟨hfirst, hnext⟩ := initial_segments hm hlt h
  constructor
  · rw [hfold]
    by_cases hone : bl = 1
    · rw [if_neg (by omega), hone, hfirst]
      exact Arr.set_self _ _ _
    · rw [if_pos (by omega), hnext _ (by omega) (by omega), Nat.sub_add_cancel h₁]
  · rw [hfold, if_pos (by omega)]

/-- Behind a set another one begins. -/
theorem begins_next {B : RefinablePartition} (h : Ok n B) {c : ℕ} (hc : Num B.nr_sets c)
    (hle : B.ends c ≤ n) :
    Num B.nr_sets (B.sets (B.elems (B.ends c))) ∧
      B.begins (B.sets (B.elems (B.ends c))) = B.ends c := by
  have hseg := h.segment c hc
  have hlc : Num n (B.ends c) := ⟨by omega, hle⟩
  have hel := h.elem _ hlc
  have hset := h.set _ hel
  have hmem := h.loc_mem hel
  rw [h.locs_elems _ hlc] at hmem
  refine ⟨hset, le_antisymm hmem.1 ?_⟩
  by_contra hlt
  -- the last place of `c` would be in both sets
  have h₁ : B.sets (B.elems (B.ends c - 1)) = c := h.sets_elems hc (by omega) (by omega)
  have h₂ := h.sets_elems hset (show _ ≤ B.ends c - 1 by omega) (by omega)
  rw [h₁] at h₂
  rw [← h₂] at hmem
  omega

/-- A set that begins in the segment of another is that set. -/
theorem eq_of_begins {B : RefinablePartition} (h : Ok n B) {c d : ℕ} (hc : Num B.nr_sets c)
    (hd : Num B.nr_sets d) (hlo : B.begins c ≤ B.begins d) (hhi : B.begins d < B.ends c) :
    d = c := by
  rw [← h.sets_elems hc hlo hhi, h.sets_elems hd le_rfl (h.segment d hd).2.1]

/-- The loop over `give_block_next` from block `c` on gives the blocks that begin before the
limit. -/
theorem give_blocks_spec {o : Minimized} (h : Ok n o.B) {fuel c : ℕ} (hc : Num o.B.nr_sets c)
    (hnow : o.gb_now = c) (hend : o.B.ends c ≤ o.gb_limit) (hlimit : o.gb_limit ≤ n + 1)
    (hall : ∀ d, Num o.B.nr_sets d → o.B.begins c ≤ o.B.begins d → o.B.begins d < o.gb_limit →
      o.B.ends d ≤ o.gb_limit)
    (hfuel : o.gb_limit - o.B.begins c + 1 ≤ fuel) :
    (give_blocks fuel c o).1.Nodup ∧
      (∀ d, d ∈ (give_blocks fuel c o).1 ↔
        Num o.B.nr_sets d ∧ o.B.begins c ≤ o.B.begins d ∧ o.B.begins d < o.gb_limit) ∧
      (give_blocks fuel c o).2.give_block_next.1 = 0 ∧
      (give_blocks fuel c o).2 = { o with gb_now := (give_blocks fuel c o).2.gb_now } := by
  induction fuel generalizing o c with
  | zero => omega
  | succ fuel ih =>
    have hseg := h.segment c hc
    have hc0 : c ≠ 0 := Nat.one_le_iff_ne_zero.1 hc.1
    have hone : ∀ d, Num o.B.nr_sets d → o.B.begins c ≤ o.B.begins d →
        o.B.begins d < o.B.ends c → d = c := fun d hd hlo hhi => eq_of_begins h hc hd hlo hhi
    rw [give_blocks, if_neg hc0]
    dsimp only
    have hnext : o.give_block_next = if o.gb_limit ≤ o.B.ends c then (0, o) else
        (o.B.sets (o.B.elems (o.B.ends c)),
          { o with gb_now := o.B.sets (o.B.elems (o.B.ends c)) }) := by
      unfold give_block_next
      rw [hnow, if_neg hc0]
    by_cases hstop : o.gb_limit ≤ o.B.ends c
    · -- the block is the last one
      rw [if_pos hstop] at hnext
      have hnil : give_blocks fuel 0 o = ([], o) := by cases fuel <;> rfl
      rw [hnext]
      dsimp only
      rw [hnil, hnext]
      refine ⟨List.nodup_singleton c, fun d => ?_, rfl, rfl⟩
      rw [List.mem_singleton]
      constructor
      · rintro rfl
        exact ⟨hc, le_rfl, by omega⟩
      · rintro ⟨hd, hlo, hhi⟩
        exact hone d hd hlo (by omega)
    · rw [if_neg hstop] at hnext
      obtain ⟨hc', hbegin⟩ := begins_next h hc (by omega)
      rw [hnext]
      dsimp only
      generalize hc₁ : o.B.sets (o.B.elems (o.B.ends c)) = c' at *
      have hlt : o.B.begins c' < o.gb_limit := by omega
      have hle : o.B.begins c ≤ o.B.begins c' := by omega
      obtain ⟨hnd, hmem, hzero, hsame⟩ := ih (o := { o with gb_now := c' }) h hc' rfl
        (hall c' hc' hle hlt) hlimit (fun d hd hlo => hall d hd (hle.trans hlo))
        (show o.gb_limit - o.B.begins c' + 1 ≤ fuel by omega)
      refine ⟨List.nodup_cons.2 ⟨fun hcm => ?_, hnd⟩, fun d => ?_, hzero, hsame⟩
      · have hback : o.B.begins c' ≤ o.B.begins c := ((hmem c).1 hcm).2.1
        omega
      · rw [List.mem_cons, hmem d]
        show d = c ∨ Num o.B.nr_sets d ∧ o.B.begins c' ≤ o.B.begins d ∧ _ ↔ _
        constructor
        · rintro (rfl | ⟨hd, hlo, hhi⟩)
          · exact ⟨hc, le_rfl, by omega⟩
          · exact ⟨hd, by omega, hhi⟩
        · rintro ⟨hd, hlo, hhi⟩
          by_cases hin : o.B.begins d < o.B.ends c
          · exact Or.inl (hone d hd hlo hin)
          · exact Or.inr ⟨hd, by omega, hhi⟩

/-- Where the final blocks of an initial block begin. -/
theorem begins_iff {B : RefinablePartition} (hok : Ok m.nr_states (initial m).B)
    (h : ReachesLoop m) (hf : Final m B) {bl c : ℕ} (hbl : Num m.nr_init_blocks bl)
    (hc : Num B.nr_sets c) :
    ((initial m).B.begins bl ≤ B.begins c ∧ B.begins c < (initial m).B.ends bl) ↔
      ∀ st, Num m.nr_states st → B.sets st = c → m.sets st = bl := by
  have hlt := (hf.ok.segment c hc).2.1
  have hlc := hf.ok.place hc le_rfl hlt
  have hel := hf.ok.elem _ hlc
  have hset := hf.ok.sets_elems hc le_rfl hlt
  have hplace := hf.within.place _ hel
  rw [hf.ok.locs_elems _ hlc] at hplace
  have hinit : ∀ st, (initial m).B.sets st = m.sets st := fun _ => rfl
  rw [hinit] at hplace
  have hnum : Num (initial m).B.nr_sets (m.sets (B.elems (B.begins c))) := hok.set _ hel
  have hbl' : Num (initial m).B.nr_sets bl := h.2 ▸ hbl
  constructor
  · rintro ⟨hlo, hhi⟩ st hst hstc
    have hsame := hf.within.refines st _ hst hel (hstc.trans hset.symm)
    rw [hinit, hinit] at hsame
    rw [hsame, ← hok.sets_elems hbl' hlo hhi, hok.sets_elems hnum hplace.1 hplace.2]
  · intro hall
    rwa [hall _ hel hset] at hplace

/-- The block at the first place of an initial block begins there, and ends with it at most. -/
theorem first_block_begins {B : RefinablePartition} (hok : Ok m.nr_states (initial m).B)
    (hf : Final m B) {bl : ℕ} (hbl : Num (initial m).B.nr_sets bl) :
    let c := B.sets (B.elems ((initial m).B.begins bl))
    Num B.nr_sets c ∧ B.begins c = (initial m).B.begins bl ∧ B.ends c ≤ (initial m).B.ends bl := by
  have hlt := (hok.segment bl hbl).2.1
  have hlc := hok.place hbl le_rfl hlt
  have hel := hf.ok.elem _ hlc
  have hmem := hf.ok.loc_mem hel
  have hplace := hf.within.place _ hel
  rw [hf.ok.locs_elems _ hlc] at hmem hplace
  have hsame : (initial m).B.sets (B.elems ((initial m).B.begins bl)) = bl := by
    rw [← hok.sets_elems (hok.set _ hel) hplace.1 hplace.2, hok.sets_elems hbl le_rfl hlt]
  have hseg := hf.within.segment hf.ok hel
  rw [hsame] at hseg
  exact ⟨hf.ok.set _ hel, le_antisymm hmem.1 hseg.1, hseg.2⟩

/-- **The final blocks of an initial block**: `give_block_first` and then `give_block_next` until it
gives `0` give each of them once. -/
theorem give_block_spec {o : Minimized} (hm : Accepted o.m) (h : ReachesLoop o.m)
    (hf : Final o.m o.B) (hob : o.init_block_borders = init_block_borders o.m) {bl : ℕ}
    (hbl : Num o.m.nr_init_blocks bl) {fuel : ℕ} (hfuel : o.m.nr_states < fuel) :
    ∃ st o₁ l o₂, o.give_block_first bl = some (st, o₁) ∧ give_blocks fuel st o₁ = (l, o₂) ∧
      o₂.give_block_next.1 = 0 ∧ o₂ = { o with gb_limit := o₂.gb_limit, gb_now := o₂.gb_now } ∧
        l.Nodup ∧ ∀ c, c ∈ l ↔ Num o.B.nr_sets c ∧
          ∀ st, Num o.m.nr_states st → o.B.sets st = c → o.m.sets st = bl := by
  have hn : 1 ≤ o.m.nr_states := Nat.one_le_iff_ne_zero.2 h.1
  have hok : Ok o.m.nr_states (initial o.m).B :=
    (split_according_initial_partition_ok hn hf.ok.size hm.sets h.2).1
  obtain ⟨hfirst, hlast⟩ := init_block_borders_spec hm hf.ok.size h hbl
  have hbl' : Num (initial o.m).B.nr_sets bl := h.2 ▸ hbl
  obtain ⟨hpos, hlt, hle⟩ := hok.segment bl hbl'
  have hin : ¬ (bl < 1 ∨ o.m.nr_init_blocks < bl) := by unfold Num at hbl; omega
  obtain ⟨hc, hbegin, hend⟩ := first_block_begins hok hf hbl'
  have hgive : o.give_block_first bl = some (o.B.sets (o.B.elems ((initial o.m).B.begins bl)),
      { o with
        gb_limit := (initial o.m).B.ends bl
        gb_now := o.B.sets (o.B.elems ((initial o.m).B.begins bl)) }) := by
    unfold give_block_first
    rw [if_neg hin, hob, hfirst, hlast]
  rw [hgive]
  generalize o.B.sets (o.B.elems ((initial o.m).B.begins bl)) = c at *
  -- a block that begins in the initial block ends there
  have hends : ∀ d, Num o.B.nr_sets d → o.B.begins c ≤ o.B.begins d →
      o.B.begins d < (initial o.m).B.ends bl → o.B.ends d ≤ (initial o.m).B.ends bl := by
    intro d hd hlo hhi
    obtain ⟨u, hu, hub⟩ := hf.ok.exists_mem hd
    have hseg := hf.within.segment hf.ok hu
    have hset : (initial o.m).B.sets u = bl :=
      (begins_iff hok h hf hbl hd).1 ⟨hbegin ▸ hlo, hhi⟩ u hu hub
    rw [hub, hset] at hseg
    exact hseg.2
  obtain ⟨hnd, hall, hzero, hsame⟩ := give_blocks_spec
    (o := { o with gb_limit := (initial o.m).B.ends bl, gb_now := c }) hf.ok hc rfl hend hle hends
    (show (initial o.m).B.ends bl - o.B.begins c + 1 ≤ fuel by omega)
  refine ⟨_, _, _, _, rfl, rfl, hzero, ?_, hnd, fun d => ?_⟩
  · rw [hsame]
  · rw [hall]
    refine and_congr_right fun hd => ?_
    rw [← begins_iff hok h hf hbl hd, ← hbegin]

end Result

/-! ## Calls in any order -/

/-- The functions that give parts of the result and have variables of their own. -/
inductive Call
  | w_transition
  | block_first (out_block : ℕ)
  | block_next

namespace Minimized

/-- One call: the transition that is given, if it is a call for one. -/
def call (o : Minimized) : Call → Option (Option (ℕ × ℤ × ℕ) × Minimized)
  | .w_transition => some (some o.give_w_transition.1, o.give_w_transition.2)
  | .block_first out_block => (o.give_block_first out_block).map fun r => (none, r.2)
  | .block_next => some (none, o.give_block_next.2)

/-- Calls one after the other: the transitions that are given. -/
def calls : List Call → Minimized → Option (List (ℕ × ℤ × ℕ) × Minimized)
  | [], o => some ([], o)
  | c :: cs, o => do
    let (t, o) ← o.call c
    let (ts, o) ← calls cs o
    some (t.toList ++ ts, o)

variable {o o' : Minimized}

/-- What calls leave as it is, and the transitions `ts` that they have given. -/
structure Called (o o' : Minimized) (ts : List (ℕ × ℤ × ℕ)) : Prop where
  giving : o'.Giving
  same : o'.m = o.m ∧ o'.B = o.B ∧ o'.init_block_borders = o.init_block_borders
  given : ts = (o.rest ++ List.replicate ts.length (0, MDP_unused_weight, 0)).take ts.length
  rest : o'.rest = o.rest.drop ts.length

theorem call_spec (h : o.Giving) {c : Call} {t : Option (ℕ × ℤ × ℕ)}
    (hc : o.call c = some (t, o')) : o.Called o' t.toList := by
  cases c with
  | w_transition =>
    obtain ⟨hg, hs, heq, hrest⟩ := give_w_transition_spec h
    obtain ⟨rfl, rfl⟩ : some o.give_w_transition.1 = t ∧ o.give_w_transition.2 = o' :=
      Prod.mk.inj (Option.some.inj hc)
    refine ⟨hg, ⟨by rw [hs], by rw [hs], by rw [hs]⟩, ?_, by simpa using hrest⟩
    rw [heq]
    cases o.rest <;> rfl
  | block_first out_block =>
    obtain ⟨⟨gb_now, o₁⟩, hfirst, hr⟩ := Option.map_eq_some_iff.1 hc
    obtain ⟨rfl, rfl⟩ : none = t ∧ o₁ = o' := Prod.mk.inj hr
    unfold give_block_first at hfirst
    split_ifs at hfirst
    cases hfirst
    exact ⟨⟨h.heads, h.fits, h.flag⟩, ⟨rfl, rfl, rfl⟩, rfl, rfl⟩
  | block_next =>
    obtain ⟨rfl, rfl⟩ : none = t ∧ o.give_block_next.2 = o' := Prod.mk.inj (Option.some.inj hc)
    unfold give_block_next
    by_cases hend : o.gb_now = 0
    · rw [if_pos hend]
      exact ⟨h, ⟨rfl, rfl, rfl⟩, rfl, rfl⟩
    rw [if_neg hend]
    dsimp only
    split_ifs
    · exact ⟨⟨h.heads, h.fits, h.flag⟩, ⟨rfl, rfl, rfl⟩, rfl, rfl⟩
    · exact ⟨⟨h.heads, h.fits, h.flag⟩, ⟨rfl, rfl, rfl⟩, rfl, rfl⟩

/-- What is given first, and then what is given of the remaining list. -/
theorem given_append {α : Type} {x : α} {L l₁ l₂ : List α}
    (h₁ : l₁ = (L ++ List.replicate l₁.length x).take l₁.length)
    (h₂ : l₂ = (L.drop l₁.length ++ List.replicate l₂.length x).take l₂.length) :
    l₁ ++ l₂ = (L ++ List.replicate (l₁ ++ l₂).length x).take (l₁ ++ l₂).length := by
  have hcut : ∀ (l : List α) k, (l ++ List.replicate k x).take k
      = l.take k ++ List.replicate (k - l.length) x := fun l k => by
    rw [List.take_append, List.take_replicate, Nat.min_eq_left (Nat.sub_le _ _)]
  rw [hcut] at h₁ h₂ ⊢
  rw [List.length_append, List.take_add]
  conv_lhs => rw [h₁, h₂]
  rcases le_total l₁.length L.length with hle | hle
  · -- no element is beyond the end among the first
    rw [Nat.sub_eq_zero_of_le hle, List.replicate_zero, List.append_nil, List.length_drop,
      List.append_assoc]
    congr 3
    omega
  · -- all the last ones are
    rw [List.drop_of_length_le hle, List.take_nil, List.append_nil, List.nil_append,
      List.append_assoc, List.length_nil, ← List.replicate_add]
    congr 2
    omega

/-- **A run of calls**, by its first call. -/
theorem calls_spec (h : o.Giving) {cs : List Call} {ts : List (ℕ × ℤ × ℕ)}
    (hc : o.calls cs = some (ts, o')) : o.Called o' ts := by
  induction cs generalizing o ts with
  | nil =>
    cases hc
    exact ⟨h, ⟨rfl, rfl, rfl⟩, rfl, rfl⟩
  | cons c cs ih =>
    obtain ⟨⟨t, o₁⟩, hcall, hc⟩ := Option.bind_eq_some_iff.1 hc
    obtain ⟨⟨ts₁, o₂⟩, hcs, hc⟩ := Option.bind_eq_some_iff.1 hc
    cases hc
    have h₁ := call_spec h hcall
    have h₂ := ih h₁.giving hcs
    refine ⟨h₂.giving, ⟨h₂.same.1.trans h₁.same.1, h₂.same.2.1.trans h₁.same.2.1,
      h₂.same.2.2.trans h₁.same.2.2⟩, ?_, ?_⟩
    · exact given_append h₁.given (h₁.rest ▸ h₂.given)
    · rw [h₂.rest, h₁.rest, List.drop_drop, List.length_append]

end Minimized

section

open Minimized

variable {σ : Type} {rd : Reader σ} {k : ℕ} {x : σ} {m : MDP} {s : State}

theorem minimized_eq (h : ReachesLoop m) {fuel : ℕ}
    (hs : main_loop (input m) fuel (initial m) = some s) : minimized m fuel = some (finish m s) := by
  rw [minimized, if_neg h.1, if_neg (not_not.2 h.2), hs]
  rfl

theorem which_block_finish (u : Fin m.nr_states) :
    (finish m s).which_block ((u : ℕ) + 1) = some (blockOf m.nr_states s.B u) := by
  have hgood : ¬ bad_st m.nr_states ((u : ℕ) + 1) := by
    unfold bad_st
    omega
  exact if_neg hgood

/-- **The transitions of the result.**  On an accepted input without labelled transitions that
reaches the loop there is a list `L` of `nr_w_out` transitions, one for every two final blocks with
a weight other than zero from the first into the second.  Whatever the order of the calls, those of
`give_w_transition` give `L` from its beginning, and unused transitions from its end on. -/
theorem give_transitions (h : MDP_read rd k x = some m) (hl : m.l_trans = []) (hfit : Fits m)
    (hr : ReachesLoop m) {fuel : ℕ} (hfuel : m.nr_states ≤ fuel) :
    ∃ o L, minimized m fuel = some o ∧ o.nr_w_out = L.length ∧
      (L.map fun t => (t.1, t.2.2)).Nodup ∧
      (∀ u v : Fin m.nr_states, o.which_block ((u : ℕ) + 1) = o.which_block ((v : ℕ) + 1) ↔
        Lumping.coarsest (m.W m.nr_states) m.initialBlocks u v) ∧
      (∀ (u v : Fin m.nr_states) b c w, o.which_block ((u : ℕ) + 1) = some b →
        o.which_block ((v : ℕ) + 1) = some c → ((b, w, c) ∈ L ↔ w ≠ 0 ∧
          Splitter.weightInto (m.W m.nr_states)
            {y | Lumping.coarsest (m.W m.nr_states) m.initialBlocks y v} u = w)) ∧
      (∀ t ∈ L, ∃ u v : Fin m.nr_states, o.which_block ((u : ℕ) + 1) = some t.1 ∧
        o.which_block ((v : ℕ) + 1) = some t.2.2) ∧
      ∀ cs ts o', o.calls cs = some (ts, o') →
        ts = (L ++ List.replicate ts.length (0, MDP_unused_weight, 0)).take ts.length := by
  have hm := MDP_read_accepted h
  obtain ⟨s, hs, hf⟩ := main_loop_final hm hl hfit hr hfuel
  obtain ⟨hgiving, hrest, hnr⟩ := finish_giving hm hfit.sums hf
  have hker : ∀ u v : Fin m.nr_states, blockOf m.nr_states s.B u = blockOf m.nr_states s.B v ↔
      Lumping.coarsest (m.W m.nr_states) m.initialBlocks u v := fun u v => by
    rw [← hf.coarsest]
    rfl
  refine ⟨finish m s, (finish m s).transitions, minimized_eq hr hs, hnr, nodup_transitions,
    fun u v => ?_, fun u v b c w hub hvc => ?_, fun t ht => ?_, fun cs ts o' hc => ?_⟩
  · rw [which_block_finish, which_block_finish, Option.some.injEq, hker]
  · rw [which_block_finish, Option.some.injEq] at hub hvc
    subst hub hvc
    have hb : Num s.B.nr_sets (blockOf m.nr_states s.B u) := hf.ok.set _ (num_state u)
    have hc : Num s.B.nr_sets (blockOf m.nr_states s.B v) := hf.ok.set _ (num_state v)
    have hblock : {y | Lumping.coarsest (m.W m.nr_states) m.initialBlocks y v} =
        Splitter.block (blockOf m.nr_states s.B) (blockOf m.nr_states s.B v) :=
      Set.ext fun y => (hker y v).symm
    rw [mem_transitions hm hf, hblock]
    -- the states of a final block agree, so the first one stands for all
    refine ⟨fun ⟨_, _, hw, hall⟩ => ⟨hw, hall u rfl⟩, fun ⟨hw, hu⟩ => ⟨hb, hc, hw, fun y hy => ?_⟩⟩
    rw [hf.same_weight hc hy, hu]
  · obtain ⟨b, w, c⟩ := t
    obtain ⟨hb, hc, -, -⟩ := (mem_transitions hm hf).1 ht
    obtain ⟨u, -, hu⟩ := first_state hf.ok hb
    obtain ⟨v, -, hv⟩ := first_state hf.ok hc
    exact ⟨u, v, by rw [which_block_finish, hu], by rw [which_block_finish, hv]⟩
  · rw [← hrest]
    exact (calls_spec hgiving hc).given

theorem give_transitions_fork : ∃ o L, minimized fork 3 = some o ∧ o.nr_w_out = L.length ∧
    ∀ cs ts o', o.calls cs = some (ts, o') →
      ts = (L ++ List.replicate ts.length (0, MDP_unused_weight, 0)).take ts.length := by
  obtain ⟨o, L, ho, hL, -, -, -, -, hcalls⟩ :=
    give_transitions fork_read rfl fork_fits ⟨by decide, rfl⟩ (le_refl 3)
  exact ⟨o, L, ho, hL, hcalls⟩

/-- **The blocks of the result.**  After any calls `give_block_first` and `give_block_next` list
every final block of the states of an initial block once, and then return 0. -/
theorem give_blocks_of_initial (h : MDP_read rd k x = some m) (hl : m.l_trans = [])
    (hfit : Fits m) (hr : ReachesLoop m) {fuel : ℕ} (hfuel : m.nr_states < fuel) :
    ∃ o, minimized m fuel = some o ∧ ∀ cs ts o', o.calls cs = some (ts, o') →
      ∀ bl, Num m.nr_init_blocks bl → ∃ st o₁ l o₂, o'.give_block_first bl = some (st, o₁) ∧
        give_blocks fuel st o₁ = (l, o₂) ∧ o₂.give_block_next.1 = 0 ∧ l.Nodup ∧
        ∀ c, c ∈ l ↔ ∃ u : Fin m.nr_states, m.sets ((u : ℕ) + 1) = bl ∧
          o.which_block ((u : ℕ) + 1) = some c := by
  have hm := MDP_read_accepted h
  obtain ⟨s, hs, hf⟩ := main_loop_final hm hl hfit hr hfuel.le
  refine ⟨finish m s, minimized_eq hr hs, fun cs ts o' hc bl hbl => ?_⟩
  obtain ⟨hom, hoB, hborders⟩ := (calls_spec (finish_giving hm hfit.sums hf).1 hc).same
  have hom : o'.m = m := hom
  have hoB : o'.B = s.B := hoB
  have hborders : o'.init_block_borders = init_block_borders m := hborders
  have hbl : Num o'.m.nr_init_blocks bl := by rwa [hom]
  obtain ⟨st, o₁, l, o₂, hfirst, hlist, hzero, -, hnd, hall⟩ := give_block_spec (o := o')
    (by rwa [hom]) (by rwa [hom]) (by rwa [hom, hoB]) (by rw [hborders, hom]) hbl (by rwa [hom])
  refine ⟨st, o₁, l, o₂, hfirst, hlist, hzero, hnd, fun c => ?_⟩
  rw [hall, hom, hoB]
  constructor
  · rintro ⟨hc, hst⟩
    obtain ⟨u, hu, huc⟩ := hf.ok.exists_mem hc
    obtain ⟨u, rfl⟩ := exists_state hu
    exact ⟨u, hst _ hu huc, by rw [which_block_finish, ← huc]; rfl⟩
  · rintro ⟨u, hu, huc⟩
    rw [which_block_finish, Option.some.injEq] at huc
    refine ⟨huc ▸ hf.ok.set _ (num_state u), fun st hst hstc => ?_⟩
    rw [← hu]
    exact hf.within.refines st _ hst (num_state u) (hstc.trans huc.symm)

theorem give_blocks_of_initial_fork : ∃ o, minimized fork 4 = some o ∧
    ∃ st o₁ l o₂, o.give_block_first 1 = some (st, o₁) ∧ give_blocks 4 st o₁ = (l, o₂) ∧
      o₂.give_block_next.1 = 0 := by
  obtain ⟨o, ho, hcalls⟩ :=
    give_blocks_of_initial fork_read rfl fork_fits ⟨by decide, rfl⟩ (show 3 < 4 by decide)
  obtain ⟨st, o₁, l, o₂, hfirst, hlist, hzero, -⟩ :=
    hcalls [] [] o rfl 1 ⟨le_rfl, show 1 ≤ 2 by decide⟩
  exact ⟨o, ho, st, o₁, l, o₂, hfirst, hlist, hzero⟩

end

end Rbsc.PartRef
