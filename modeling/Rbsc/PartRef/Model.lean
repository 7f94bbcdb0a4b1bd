import Rbsc.Graph
import Rbsc.Lib.Arrays
import Rbsc.Lib.Loop

/-!
# `part_ref`: the minimizer

The functions of `MDP_minimize.cc` on arrays, up to the number of blocks that is printed.  States,
transitions, blocks and cords are numbered from one.  `bisim_split` is commented out of the main
loop here, so nothing reads its counters and links, and they are left out; so are the numbers of
output transitions, which are not printed, and the checks of array indices.

The index of a child in a heap, the middle of a segment and the sums of weights are computed with 32
bits, as they are there (`unsigned` has the width of `node_t`).  From `2 ^ 31` states on the index of
a child can wrap, and a sort need not end: `fix_heap` gives up then.
-/

namespace Rbsc.PartRef

open Arrays DoWhile

/-- `MDP_unused_weight`, that is `INT_MIN`. -/
def MDP_unused_weight : ℤ := -2 ^ 31

/-- `MDP_zero_weight`. -/
def MDP_zero_weight : ℤ := 0

/-- Conversion to `int`. -/
def intT (x : ℤ) : ℤ := x.bmod (2 ^ 32)

theorem intT_of_lt {x : ℤ} (h : x.natAbs < 2 ^ 31) : intT x = x :=
  Int.bmod_eq_of_le (by omega) (by omega)

/-! ## Sorting -/

section Heap

variable {κ : Type*} [LinearOrder κ]

/-- The loop of `fix_heap`: `parent` is the place that is free for `tmp_el`.  A child stands above
its parent as long as its index does not wrap, so `fuel` is not used up then when it is at least
`e - parent`. -/
def fix_heap_loop (beg e tmp_el : ℕ) (key : ℕ → κ) : ℕ → Arr ℕ → ℕ → Arr ℕ
  | 0, elems, parent => elems.set parent tmp_el
  | fuel + 1, elems, parent =>
    let child := nodeT (2 * parent - beg + 1)
    if child < e then
      let child := if child + 1 < e ∧ key (elems child) < key (elems (child + 1)) then child + 1
        else child
      if key tmp_el < key (elems child) then
        fix_heap_loop beg e tmp_el key fuel (elems.set parent (elems child)) child
      else elems.set parent tmp_el
    else elems.set parent tmp_el

/-- `fix_heap`. -/
def fix_heap (elems : Arr ℕ) (beg parent e : ℕ) (key : ℕ → κ) : Arr ℕ :=
  fix_heap_loop beg e (elems parent) key (e - parent) elems parent

/-- The body of the second loop of `heapsort`. -/
def heapsort_step (beg : ℕ) (key : ℕ → κ) (i1 : ℕ) (elems : Arr ℕ) : Arr ℕ :=
  let tmp_el := elems beg
  let elems := elems.set beg (elems i1)
  let elems := elems.set i1 tmp_el
  fix_heap elems beg beg i1 key

/-- `heapsort`: both loops run downwards. -/
def heapsort (elems : Arr ℕ) (beg e : ℕ) (key : ℕ → κ) : Arr ℕ :=
  if e = 0 then elems
  else
    let elems :=
      (List.Ico beg (nodeT (e + beg) / 2)).foldr (fun i1 elems => fix_heap elems beg i1 e key) elems
    (List.Ico (beg + 1) e).foldr (heapsort_step beg key) elems

end Heap

/-! ## Refinable partitions -/

/-- `refinable_partition`. -/
structure RefinablePartition where
  nr_sets : ℕ
  elems : Arr ℕ
  locs : Arr ℕ
  sets : Arr ℕ
  begins : Arr ℕ
  ends : Arr ℕ
  mids : Arr ℕ

namespace RefinablePartition

/-- The places of a set, in order. -/
def places (B : RefinablePartition) (ss : ℕ) : List ℕ := List.Ico (B.begins ss) (B.ends ss)

/-- `mark`: the set when `el` is its first marked element, else `0`. -/
def mark (B : RefinablePartition) (el : ℕ) : ℕ × RefinablePartition :=
  let ss := B.sets el
  let lc := B.locs el
  let m_lc := B.mids ss
  let mids := B.mids.set ss (m_lc + 1)
  let elems := B.elems.set lc (B.elems m_lc)
  let locs := B.locs.set (elems lc) lc
  let elems := elems.set m_lc el
  let locs := locs.set el m_lc
  (if m_lc = B.begins ss then ss else 0, { B with elems := elems, locs := locs, mids := mids })

/-- The end of `split`: the new set has no marks and its elements are told. -/
def open_set (B : RefinablePartition) : RefinablePartition :=
  { B with
    mids := B.mids.set B.nr_sets (B.begins B.nr_sets)
    sets := (B.places B.nr_sets).foldl (fun sets lc => sets.set (B.elems lc) B.nr_sets) B.sets }

/-- The marks of a set, dropped when all of it is marked. -/
def drop_full (B : RefinablePartition) (ss : ℕ) : RefinablePartition :=
  if B.mids ss = B.ends ss then { B with mids := B.mids.set ss (B.begins ss) } else B

/-- The middle of `split`: the smaller part gets the new number.  The first component is the
number of the unmarked part. -/
def cut (B : RefinablePartition) (ss : ℕ) : ℕ × RefinablePartition :=
  let nr := B.nr_sets + 1
  if B.mids ss - B.begins ss ≤ B.ends ss - B.mids ss then
    (ss, { B with
      nr_sets := nr
      begins := (B.begins.set nr (B.begins ss)).set ss (B.mids ss)
      ends := B.ends.set nr (B.mids ss) })
  else
    (nr, { B with
      nr_sets := nr
      begins := B.begins.set nr (B.mids ss)
      ends := (B.ends.set nr (B.ends ss)).set ss (B.mids ss)
      mids := B.mids.set ss (B.begins ss) })

/-- `split`: the number of the unmarked part, `0` when there is none or nothing is marked. -/
def split (B : RefinablePartition) (ss : ℕ) : ℕ × RefinablePartition :=
  let B := B.drop_full ss
  if B.mids ss = B.begins ss then (0, B)
  else
    let r := B.cut ss
    (r.1, r.2.open_set)

/-- The variables of the loop of `multisplit`. -/
structure Multisplit where
  ss : ℕ
  value : ℤ
  B : RefinablePartition

/-- The body of the loop of `multisplit`. -/
def multisplit_step (ww : Arr ℤ) (st : Multisplit) (lc : ℕ) : Multisplit :=
  if ww (st.B.elems lc) = st.value then st
  else
    let r := split { st.B with mids := st.B.mids.set st.ss lc } st.ss
    { ss := r.1, value := ww (r.2.elems lc), B := r.2 }

/-- The elements of a set in the order of `ww`. -/
def sort_set (B : RefinablePartition) (ss : ℕ) (ww : Arr ℤ) : RefinablePartition :=
  let elems := heapsort B.elems (B.begins ss) (B.ends ss) ww
  { B with
    elems := elems
    locs := (B.places ss).foldl (fun locs lc => locs.set (elems lc) lc) B.locs }

/-- `multisplit`. -/
def multisplit (B : RefinablePartition) (ss : ℕ) (ww : Arr ℤ) : RefinablePartition :=
  let bg_s := B.begins ss
  let en_s := B.ends ss
  let B := B.sort_set ss ww
  ((List.Ico (bg_s + 1) en_s).foldl (multisplit_step ww)
    { ss := ss, value := ww (B.elems bg_s), B := B }).B

end RefinablePartition

/-! ## The input -/

/-- A labelled transition. -/
structure LTransition where
  tail : ℕ
  label : ℕ
  head : ℕ
deriving DecidableEq, Repr, Inhabited

/-- A weighed transition. -/
structure WTransition where
  tail : ℕ
  weight : ℤ
  head : ℕ
deriving DecidableEq, Repr, Inhabited

/-- What the `store_` functions leave in memory; `sets` is the array of `B`. -/
structure MDP where
  nr_states : ℕ
  nr_labels : ℕ
  nr_init_blocks : ℕ
  l_trans : List LTransition
  w_trans : List WTransition
  sets : Arr ℕ

/-- Entry `i` of an array that is filled from one. -/
def fromOne {α : Type*} [Inhabited α] (l : List α) (i : ℕ) : α := (default :: l).getD i default

namespace MDP

variable (m : MDP)

def nr_l_trans : ℕ := m.l_trans.length
def nr_w_trans : ℕ := m.w_trans.length
def l_tails (tr : ℕ) : ℕ := (fromOne m.l_trans tr).tail
def l_labels (tr : ℕ) : ℕ := (fromOne m.l_trans tr).label
def l_heads (tr : ℕ) : ℕ := (fromOne m.l_trans tr).head
def w_tails (tr : ℕ) : ℕ := (fromOne m.w_trans tr).tail
def w_weights (tr : ℕ) : ℤ := (fromOne m.w_trans tr).weight
def w_heads (tr : ℕ) : ℕ := (fromOne m.w_trans tr).head

end MDP

/-- The transitions of the states: those of `st` are `trans[ends[st - 1]]` up to
`trans[ends[st] - 1]`. -/
structure Adjacent where
  trans : Arr ℕ
  ends : Arr ℕ

/-- The transitions of a state, in order. -/
def Adjacent.of (a : Adjacent) (st : ℕ) : List ℕ :=
  (List.Ico (a.ends (st - 1)) (a.ends st)).map a.trans

/-- The first loop of `make_adjacent_tr_set`. -/
def count_tr (nr_states nr_trans : ℕ) (tr_states : ℕ → ℕ) (adj_ends : Arr ℕ) : Arr ℕ :=
  (List.Ico 1 (nr_trans + 1)).foldl (fun e tr => e.set (tr_states tr) (e (tr_states tr) + 1))
    (fill (nr_states + 1) (fun _ => 0) adj_ends)

/-- The second loop of `make_adjacent_tr_set`. -/
def first_places (nr_states : ℕ) (adj_ends : Arr ℕ) : ℕ × Arr ℕ :=
  (List.range (nr_states + 1)).foldl (fun p st => (p.1 + p.2 st, p.2.set st p.1)) (0, adj_ends)

/-- The body of the last loop of `make_adjacent_tr_set`. -/
def place_tr (tr_states : ℕ → ℕ) (a : Adjacent) (tr : ℕ) : Adjacent :=
  let st := tr_states tr
  { trans := a.trans.set (a.ends st) tr, ends := a.ends.set st (a.ends st + 1) }

/-- `make_adjacent_tr_set`, on arrays with nothing in them. -/
def make_adjacent_tr_set (nr_states nr_trans : ℕ) (tr_states : ℕ → ℕ) : Adjacent :=
  (List.Ico 1 (nr_trans + 1)).foldl (place_tr tr_states)
    { trans := .const 0
      ends := (first_places nr_states (count_tr nr_states nr_trans tr_states (.const 0))).2 }

/-! ## The initial partitions -/

/-- The variables of the loop of `split_according_initial_partition`. -/
structure Borders where
  nr_sets : ℕ
  bl1 : ℕ
  begins : Arr ℕ
  ends : Arr ℕ
  mids : Arr ℕ

/-- The body of the loop. -/
def border_step (sets elems : Arr ℕ) (b : Borders) (lc : ℕ) : Borders :=
  let bl2 := sets (elems lc)
  if b.bl1 ≠ bl2 then
    { nr_sets := b.nr_sets + 1
      bl1 := bl2
      begins := b.begins.set (b.nr_sets + 1) lc
      ends := b.ends.set b.nr_sets lc
      mids := b.mids.set (b.nr_sets + 1) lc }
  else b

/-- `split_according_initial_partition`. -/
def split_according_initial_partition (nr_states : ℕ) (sets : Arr ℕ) : RefinablePartition :=
  let elems := (List.Ico 1 (nr_states + 1)).foldl (fun elems st => elems.set st st) (.const 0)
  let elems := heapsort elems 1 (nr_states + 1) sets
  let b := (List.Ico 2 (nr_states + 1)).foldl (border_step sets elems)
    { nr_sets := 1
      bl1 := sets (elems 1)
      begins := (Arr.const 0).set 1 1
      ends := .const 0
      mids := (Arr.const 0).set 1 1 }
  { nr_sets := b.nr_sets
    elems := elems
    locs := (List.Ico 1 (nr_states + 1)).foldl (fun locs lc => locs.set (elems lc) lc) (.const 0)
    sets := sets
    begins := b.begins
    ends := b.ends.set b.nr_sets (nr_states + 1)
    mids := b.mids }

/-- What `group_l_transitions` writes, with its local `index`. -/
structure Groups where
  nr_sets : ℕ
  elems : Arr ℕ
  ends : Arr ℕ
  index : Arr ℕ

/-- The body of the loop that counts the transitions of a label. -/
def count_label (l_labels : ℕ → ℕ) (T : Groups) (tr : ℕ) : Groups :=
  let lb := l_labels tr
  let id := T.index lb
  if id < 1 ∨ T.nr_sets < id ∨ T.ends id ≠ lb then
    let id := T.nr_sets + 1
    { nr_sets := id
      elems := T.elems.set id 1
      ends := T.ends.set id lb
      index := T.index.set lb id }
  else { T with elems := T.elems.set id (T.elems id + 1) }

/-- The body of the loop that puts the transitions of a label together. -/
def place_label (l_labels : ℕ → ℕ) (T : Groups) (tr : ℕ) : Groups :=
  let id := T.index (l_labels tr)
  { T with elems := T.elems.set (T.ends id) tr, ends := T.ends.set id (T.ends id + 1) }

/-- The time-saving way to group by labels. -/
def group_by_count (m : MDP) : Groups :=
  let trs := List.Ico 1 (m.nr_l_trans + 1)
  let T := trs.foldl (count_label m.l_labels)
    { nr_sets := 0, elems := .const 0, ends := .const 0, index := .const 0 }
  let ends := (List.Ico 1 T.nr_sets).foldl
    (fun ends id => ends.set (id + 1) (ends id + T.elems id)) (T.ends.set 1 1)
  trs.foldl (place_label m.l_labels) { T with ends := ends }

/-- The memory-saving way to group by labels. -/
def group_by_sort (m : MDP) : Groups :=
  let elems := (List.Ico 1 (m.nr_l_trans + 1)).foldl (fun elems tr => elems.set tr tr) (.const 0)
  let elems := heapsort elems 1 (m.nr_l_trans + 1) m.l_labels
  let b := (List.Ico 2 (m.nr_l_trans + 1)).foldl (fun (b : ℕ × ℕ × Arr ℕ) tr =>
    if m.l_labels (elems tr) ≠ b.2.1 then
      (b.1 + 1, m.l_labels (elems tr), b.2.2.set b.1 tr)
    else b) (1, m.l_labels (elems 1), .const 0)
  { nr_sets := b.1
    elems := elems
    ends := b.2.2.set b.1 (m.nr_l_trans + 1)
    index := .const 0 }

/-- `group_l_transitions`: by labels, and by tail states within a label. -/
def group_l_transitions (m : MDP) : Groups :=
  if m.nr_l_trans = 0 then
    { nr_sets := 0, elems := .const 0, ends := .const 0, index := .const 0 }
  else
    let T :=
      if (11 * m.nr_states + 7 * m.nr_l_trans + m.nr_w_trans) % 2 ^ 32 < m.nr_labels then
        group_by_sort m
      else group_by_count m
    let ends := T.ends.set 0 1
    { T with
      ends := ends
      elems := (List.Ico 1 (T.nr_sets + 1)).foldl
        (fun elems id => heapsort elems (ends (id - 1)) (ends id) m.l_tails) T.elems }

/-- The cords as `minimize` completes them. -/
def initial_cords (m : MDP) : RefinablePartition :=
  let T := group_l_transitions m
  let trs := List.Ico 1 (m.nr_l_trans + 1)
  let begins := (List.Ico 2 (T.nr_sets + 1)).foldl
    (fun begins id => begins.set id (T.ends (id - 1)))
    (if T.nr_sets ≠ 0 then (Arr.const 0).set 1 1 else .const 0)
  { nr_sets := T.nr_sets
    elems := T.elems
    locs := trs.foldl (fun locs lc => locs.set (T.elems lc) lc) (.const 0)
    sets := (trs.foldl (fun (p : ℕ × Arr ℕ) lc =>
      let id := if T.ends p.1 ≤ lc then p.1 + 1 else p.1
      (id, p.2.set (T.elems lc) id)) (1, .const 0)).2
    begins := begins
    ends := T.ends
    mids := begins }

/-! ## The main loop -/

/-- The variables of the main loop.  The worksets are empty between the splitters. -/
structure State where
  B : RefinablePartition
  T : RefinablePartition
  ww : Arr ℤ
  markov_splitter : ℕ
  cord_splitter : ℕ
  bisim_splitter : ℕ

/-- What the main loop only reads. -/
structure Input where
  m : MDP
  in_l : Adjacent
  adj_w : Adjacent

/-- Marks an element and remembers a set that had no marks. -/
def touch (p : RefinablePartition × List ℕ) (el : ℕ) : RefinablePartition × List ℕ :=
  let r := p.1.mark el
  (r.2, if r.1 ≠ 0 then p.2 ++ [r.1] else p.2)

/-- The body of the loop of `update_cords`. -/
def update_cord (i : Input) (B T : RefinablePartition) (cord_splitter : ℕ) : RefinablePartition :=
  let p := (B.places cord_splitter).foldl
    (fun p lc => (i.in_l.of (B.elems lc)).foldl touch p) (T, [])
  p.2.reverse.foldl (fun T cd => (T.split cd).2) p.1

/-- `update_cords`. -/
def update_cords (i : Input) (s : State) : State :=
  { s with
    T := (List.Ico s.cord_splitter (s.B.nr_sets + 1)).foldl (update_cord i s.B) s.T
    cord_splitter := max s.cord_splitter (s.B.nr_sets + 1) }

/-- One input transition of the splitter: the sum of its tail, and the tail when it is met first. -/
def add_weight (m : MDP) (p : Arr ℤ × List ℕ) (tr : ℕ) : Arr ℤ × List ℕ :=
  let st1 := m.w_tails tr
  if p.1 st1 = MDP_unused_weight then (p.1.set st1 (m.w_weights tr), p.2 ++ [st1])
  else (p.1.set st1 (intT (p.1 st1 + m.w_weights tr)), p.2)

/-- The scan of the input transitions of the splitter: `ww` and `touched_states`. -/
def scan_splitter (i : Input) (B : RefinablePartition) (markov_splitter : ℕ) (ww : Arr ℤ) :
    Arr ℤ × List ℕ :=
  (B.places markov_splitter).foldl
    (fun p lc => (i.adj_w.of (B.elems lc)).foldl (add_weight i.m) p) (ww, [])

/-- The scan of the touched states: `B` and `touched_sets`. -/
def mark_touched (ww : Arr ℤ) (touched_states : List ℕ) (B : RefinablePartition) :
    RefinablePartition × List ℕ :=
  touched_states.foldl (fun p st => if ww st ≠ MDP_zero_weight then touch p st else p) (B, [])

/-- The body of the search for the majority candidate: `count` and `pmc`. -/
def majority_step (ww : Arr ℤ) (B : RefinablePartition) (p : ℕ × ℤ) (lc : ℕ) : ℕ × ℤ :=
  let st := B.elems lc
  if p.1 = 0 then (1, ww st)
  else if p.2 = ww st then (p.1 + 1, p.2)
  else (p.1 - 1, p.2)

/-- The possible majority candidate `pmc` of a block. -/
def majority_candidate (ww : Arr ℤ) (B : RefinablePartition) (block1 : ℕ) : ℤ :=
  ((B.places block1).foldl (majority_step ww B) (0, MDP_zero_weight)).2

/-- Marks the states of a block whose sum is the candidate. -/
def mark_candidate (ww : Arr ℤ) (pmc : ℤ) (block1 : ℕ) (B : RefinablePartition) :
    RefinablePartition :=
  (B.places block1).foldl
    (fun B lc => if ww (B.elems lc) = pmc then (B.mark (B.elems lc)).2 else B) B

/-- One touched block: by touched and untouched, by the candidate, and the rest by `ww`. -/
def split_touched (ww : Arr ℤ) (B : RefinablePartition) (block1 : ℕ) : RefinablePartition :=
  let r := B.split block1
  let B := r.2
  let block1 := if block1 = r.1 then B.nr_sets else block1
  let B := mark_candidate ww (majority_candidate ww B block1) block1 B
  let r := B.split block1
  if r.1 ≠ 0 then r.2.multisplit r.1 ww else r.2

/-- The body of the loop of `markov_split`. -/
def markov_step (i : Input) (s : State) : State :=
  let p := scan_splitter i s.B s.markov_splitter s.ww
  let q := mark_touched p.1 p.2 s.B
  { s with
    B := q.2.reverse.foldl (split_touched p.1) q.1
    ww := p.2.foldl (fun ww st => ww.set st MDP_unused_weight) p.1
    markov_splitter := s.markov_splitter + 1 }

/-- `markov_split`, its loop given up after `fuel` splitters. -/
def markov_split (i : Input) (fuel : ℕ) (s : State) : Option State :=
  (whileDo (fun s => some (markov_step i s)) (fun s => s.markov_splitter ≤ s.B.nr_sets) fuel s).map
    (update_cords i)

/-- The main loop, given up after `fuel` rounds. -/
def main_loop (i : Input) (fuel : ℕ) (s : State) : Option State :=
  whileDo (markov_split i fuel)
    (fun s => s.markov_splitter ≤ s.B.nr_sets ∨ s.bisim_splitter ≤ s.T.nr_sets) fuel s

/-- What `minimize` prepares for the main loop. -/
def input (m : MDP) : Input where
  m := m
  in_l := make_adjacent_tr_set m.nr_states m.nr_l_trans m.l_heads
  adj_w := make_adjacent_tr_set m.nr_states m.nr_w_trans m.w_heads

/-- The variables before the main loop. -/
def initial (m : MDP) : State where
  B := split_according_initial_partition m.nr_states m.sets
  T := initial_cords m
  ww := (List.Ico 1 (m.nr_states + 1)).foldl (fun ww st => ww.set st MDP_unused_weight) (.const 0)
  markov_splitter := 1
  cord_splitter := 2
  bisim_splitter := 1

/-- `minimize`: the number of blocks that is printed.  Nothing is printed when there are no states
or some initial block is empty, and the main loop is given up after `fuel` rounds. -/
def minimize (m : MDP) (fuel : ℕ) : Option ℕ :=
  if m.nr_states = 0 then none
  else if (initial m).B.nr_sets ≠ m.nr_init_blocks then none
  else (main_loop (input m) fuel (initial m)).map fun s => s.B.nr_sets

end Rbsc.PartRef
