import Rbsc.Rsc.Exact
import Rbsc.Lib.ComparisonSort

/-!
# The array accesses of `rsc`

A round of `main` once more, on arrays of `node_n` entries and edge arrays of `edge_n` entries: an
access that is outside of its array is `none`.  `std::sort` asks its comparator, and by what it
promises it has to ask about every index.

* `Checked.round_eq`: with `1` to `2 ^ 31` nodes no access is outside, and the round is that of the
  model;
* `Checked.round_bounds`: with other numbers of nodes some access is: without nodes the one of `sum`
  to the first entry, and with more than `2 ^ 31` one of the comparator, whose `int` parameters are
  negative from there on.
-/

namespace Rbsc.Rsc

open Arrays DoWhile ForLoop ComparisonSort

/-- A sorting program as a `std::sort`. -/
def toStdSort (srt : Sorter ℕ) : StdSort where
  sort lt l := (srt.sort l).run lt
  perm lt _ l := srt.perm lt l
  sorted lt _ l := srt.sorted lt l

/-! ## The functions with their accesses -/

namespace Checked

/-- The `if` of `spmv`. -/
def reset (edges : List Edge) (node_n : ℕ) (z : Arr Word) (i : ℕ) : Option (Arr Word) := do
  let e ← edges[i]?
  if i = 0 then z.write node_n e.edge_start 0
  else do
    let e' ← edges[i - 1]?
    if e.edge_start ≠ e'.edge_start then z.write node_n e.edge_start 0 else some z

/-- The body of the loop of `spmv`. -/
def spmv_step (h : Word → Word) (edges : List Edge) (w : Arr Word) (it : Word) (node_n : ℕ)
    (z : Arr Word) (i : ℕ) : Option (Arr Word) := do
  let z ← reset edges node_n z i
  let e ← edges[i]?
  let z_i ← z.read node_n e.edge_start
  let w_i ← w.read node_n e.edge_end
  z.write node_n e.edge_start (z_i + h (w_i + it) * (e.edge_weight : Word))

/-- `spmv`. -/
def spmv (h : Word → Word) (edges : List Edge) (w z : Arr Word) (it : Word) (node_n : ℕ) :
    Option (Arr Word) :=
  (List.range edges.length).foldlM (spmv_step h edges w it node_n) z

/-- `make_indexes`. -/
def make_indexes (indexes : Arr ℕ) (node_n : ℕ) : Option (Arr ℕ) :=
  (List.range node_n).foldlM (fun indexes i => indexes.write node_n i i) indexes

/-- `a[i]` for an `int` index. -/
def readInt (node_n : ℕ) (a : Arr Word) (i : ℤ) : Option Word :=
  if 0 ≤ i then a.read node_n i.toNat else none

/-- The comparator of `main`, from left to right. -/
def comparator (w z : Arr Word) (node_n i k : ℕ) : Option Bool := do
  let i := toInt i
  let k := toInt k
  let z_i ← readInt node_n z i
  let z_k ← readInt node_n z k
  if z_i < z_k then some true
  else if z_i = z_k then do
    let w_i ← readInt node_n w i
    let w_k ← readInt node_n w k
    some (decide (w_i < w_k))
  else some false

/-- `std::sort(indexes, indexes + node_n, comparator)`, which stays within its range. -/
def sort_indexes (srt : Sorter ℕ) (w z : Arr Word) (indexes : Arr ℕ) (node_n : ℕ) :
    Option (Arr ℕ) :=
  ((srt.sort (toList node_n indexes)).runM (comparator w z node_n)).map fun l => store l indexes

/-- `gather`. -/
def gather (s_z z : Arr Word) (indexes : Arr ℕ) (node_n : ℕ) : Option (Arr Word) :=
  (List.range node_n).foldlM (fun s_z i => do
    let index ← indexes.read node_n i
    let x ← z.read node_n index
    s_z.write node_n i x) s_z

/-- The body of the loop of `sum`. -/
def sum_step (node_n : ℕ) (st : SumState) (i : ℕ) : Option SumState := do
  let x ← st.s_z.read node_n i
  let cur := if x ≠ st.prec then nodeT (st.cur + 1) else st.cur
  let s_z ← st.s_z.write node_n i (cur : Word)
  some { s_z := s_z, prec := x, cur := cur }

/-- `sum`. -/
def sum (s_z : Arr Word) (node_n : ℕ) : Option (Arr Word) := do
  let prec ← s_z.read node_n 0
  let s_z ← s_z.write node_n 0 0
  let st ← (List.range' 1 (node_n - 1)).foldlM (sum_step node_n)
    { s_z := s_z, prec := prec, cur := 0 }
  some st.s_z

/-- `reorder`. -/
def reorder (w s_z : Arr Word) (indexes : Arr ℕ) (node_n : ℕ) : Option (Arr Word) :=
  (List.range node_n).foldlM (fun w i => do
    let index ← indexes.read node_n i
    let x ← s_z.read node_n i
    w.write node_n index x) w

/-- The body of the loop; `start_node_n - 1` is a subtraction of `node_t`. -/
def round (h : Word → Word) (srt : Sorter ℕ) (g : Graph) (s : State) : Option State := do
  let start_node_n := g.node_n
  let z ← spmv h g.edges s.w s.z s.it start_node_n
  let indexes ← make_indexes s.indexes start_node_n
  let indexes ← sort_indexes srt s.w z indexes start_node_n
  let s_z ← gather s.s_z z indexes start_node_n
  let s_z ← sum s_z start_node_n
  let last ← s_z.read start_node_n (nodeT (start_node_n + (2 ^ 32 - 1)))
  let w ← reorder s.w s_z indexes start_node_n
  some
    { w := w
      z := z
      s_z := s_z
      indexes := indexes
      it := s.it + 1
      node_n := s.new_node_n
      new_node_n := nodeT (last.toNat + 1) }

/-! ## Within the arrays -/

variable {h : Word → Word} {edges : List Edge} {w z s_z : Arr Word} {it : Word} {indexes : Arr ℕ}
  {n : ℕ}

theorem reset_eq {i : ℕ} (hi : i < edges.length) (hs : edges[i].edge_start < n) (z : Arr Word) :
    reset edges n z i = some (if i = 0 ∨ edges[i].edge_start ≠ startAt edges (i - 1)
      then z.set edges[i].edge_start 0 else z) := by
  rw [reset, List.getElem?_eq_getElem hi, Option.bind_eq_bind, Option.bind_some,
    Arr.write_of_lt _ _ hs]
  by_cases h0 : i = 0
  · rw [if_pos h0, if_pos (Or.inl h0)]
  · rw [if_neg h0, List.getElem?_eq_getElem (by omega), startAt_eq (by omega),
      Option.bind_some]
    simp only [h0, false_or]
    split_ifs <;> rfl

theorem spmv_step_eq (hids : IdsBelow n edges) {i : ℕ} (hi : i < edges.length) (z : Arr Word) :
    spmv_step h edges w it n z i = some (Rsc.spmv_step h edges w it z i) := by
  obtain ⟨hs, he⟩ := hids _ (List.getElem_mem hi)
  simp only [spmv_step, Rsc.spmv_step, reset_eq hi hs, List.getElem?_eq_getElem hi, edgeAt_eq hi,
    Arr.read_of_lt _ hs, Arr.read_of_lt _ he, Arr.write_of_lt _ _ hs, Option.bind_eq_bind,
    Option.bind_some]

theorem spmv_eq (hids : IdsBelow n edges) :
    spmv h edges w z it n = some (Rsc.spmv h edges w z it) :=
  foldlM_some (fun _ hi z => spmv_step_eq hids (List.mem_range.1 hi) z) z

theorem make_indexes_eq (indexes : Arr ℕ) (n : ℕ) :
    make_indexes indexes n = some (Rsc.make_indexes indexes n) :=
  foldlM_some (fun _ hi a => a.write_of_lt _ (List.mem_range.1 hi)) indexes

theorem gather_eq (h : IsPerm n indexes) :
    gather s_z z indexes n = some (Rsc.gather s_z z indexes n) := by
  refine foldlM_some (fun i hi a => ?_) s_z
  have hi := List.mem_range.1 hi
  rw [Arr.read_of_lt _ hi, Option.bind_eq_bind, Option.bind_some, Arr.read_of_lt _ (h.maps i hi)]
  exact a.write_of_lt _ hi

theorem sum_eq (hn : 1 ≤ n) (s_z : Arr Word) : sum s_z n = some (Rsc.sum s_z n) := by
  have hloop : ∀ st : SumState, (List.range' 1 (n - 1)).foldlM (sum_step n) st =
      some ((List.range' 1 (n - 1)).foldl Rsc.sum_step st) := by
    refine fun st => foldlM_some (fun i hi st => ?_) st
    have hi : i < n := by
      rw [List.mem_range'_1] at hi
      omega
    simp only [sum_step, Arr.read_of_lt _ hi, Arr.write_of_lt _ _ hi, Option.bind_eq_bind,
      Option.bind_some]
    rfl
  simp only [sum, Arr.read_of_lt s_z hn, Arr.write_of_lt s_z _ hn, hloop, Option.bind_eq_bind,
    Option.bind_some]
  rfl

theorem reorder_eq (h : IsPerm n indexes) :
    reorder w s_z indexes n = some (Rsc.reorder w s_z indexes n) := by
  refine foldlM_some (fun i hi a => ?_) w
  have hi := List.mem_range.1 hi
  rw [Arr.read_of_lt _ hi, Option.bind_eq_bind, Option.bind_some, Arr.read_of_lt _ hi]
  exact a.write_of_lt _ (h.maps i hi)

/-! ## The comparator -/

theorem toInt_nonneg_iff {i : ℕ} (hi : i < 2 ^ 32) : 0 ≤ toInt i ↔ i < 2 ^ 31 := by
  rw [toInt, BitVec.toInt_eq_toNat_cond, BitVec.toNat_ofNat, Nat.mod_eq_of_lt hi]
  split_ifs <;> omega

/-- An answer is that of the model. -/
theorem comparator_of_eq_some {i k : ℕ} {ans : Bool}
    (h : comparator w z n i k = some ans) : Rsc.comparator w z i k = ans := by
  have hread : ∀ {a : Arr Word} {i : ℤ} {x : Word}, readInt n a i = some x → atInt a i = x := by
    intro a i x hx
    unfold readInt Arr.read at hx
    split_ifs at hx with hi hin
    rw [atInt, if_pos hi]
    exact Option.some.inj hx
  obtain ⟨z_i, hz_i, h⟩ := Option.bind_eq_some_iff.1 h
  obtain ⟨z_k, hz_k, h⟩ := Option.bind_eq_some_iff.1 h
  unfold Rsc.comparator
  dsimp only
  rw [hread hz_i, hread hz_k]
  split_ifs at h with hlt heq
  · cases h
    simp [hlt]
  · obtain ⟨w_i, hw_i, h⟩ := Option.bind_eq_some_iff.1 h
    obtain ⟨w_k, hw_k, h⟩ := Option.bind_eq_some_iff.1 h
    rw [hread hw_i, hread hw_k]
    cases h
    simp [heq]
  · cases h
    simp [hlt, heq]

/-- The indices that are compared are not negative. -/
theorem bounds_of_eq_some {i k : ℕ} {ans : Bool} (h : comparator w z n i k = some ans) :
    0 ≤ toInt i ∧ 0 ≤ toInt k := by
  have hread : ∀ {i : ℤ} {x : Word}, readInt n z i = some x → 0 ≤ i := by
    intro i x hx
    by_contra hi
    rw [readInt, if_neg hi] at hx
    cases hx
  obtain ⟨z_i, hz_i, h⟩ := Option.bind_eq_some_iff.1 h
  obtain ⟨z_k, hz_k, -⟩ := Option.bind_eq_some_iff.1 h
  exact ⟨hread hz_i, hread hz_k⟩

theorem comparator_eq (hn : n ≤ 2 ^ 31) {i k : ℕ} (hi : i < n) (hk : k < n) :
    comparator w z n i k = some (Rsc.comparator w z i k) := by
  have hread : ∀ (a : Arr Word) {j : ℕ}, j < n → readInt n a (toInt j) = some (a j) := by
    intro a j hj
    rw [toInt_of_lt (by omega), readInt, if_pos (by omega), Int.toNat_natCast, Arr.read_of_lt _ hj]
  have hans : ∃ ans, comparator w z n i k = some ans := by
    simp only [comparator, hread _ hi, hread _ hk, Option.bind_eq_bind, Option.bind_some]
    split_ifs <;> exact ⟨_, rfl⟩
  obtain ⟨ans, hans⟩ := hans
  rw [hans, comparator_of_eq_some hans]

/-- With up to `2 ^ 31` nodes the sort stays within the arrays. -/
theorem sort_indexes_of_le (srt : Sorter ℕ) (hn : n ≤ 2 ^ 31) (indexes : Arr ℕ) :
    sort_indexes srt w z (Rsc.make_indexes indexes n) n =
      some (Rsc.sort_indexes (toStdSort srt) w z (Rsc.make_indexes indexes n) n) := by
  refine Option.map_eq_some_iff.2 ⟨_, ?_, rfl⟩
  rw [toList_make_indexes, Comparing.runM_eq_some_iff fun _ _ _ => comparator_of_eq_some]
  refine ⟨rfl, fun q hq => ?_⟩
  obtain ⟨h₁, h₂⟩ := srt.asks _ _ q hq
  exact comparator_eq hn (List.mem_range.1 h₁) (List.mem_range.1 h₂)

/-- With more nodes it does not: it has to ask about node `2 ^ 31`. -/
theorem le_of_sort_indexes (srt : Sorter ℕ) {indexes indexes' : Arr ℕ}
    (h : sort_indexes srt w z (Rsc.make_indexes indexes n) n = some indexes') : n ≤ 2 ^ 31 := by
  by_contra hn
  obtain ⟨l, hl, -⟩ := Option.map_eq_some_iff.1 h
  rw [toList_make_indexes, Comparing.runM_eq_some_iff fun _ _ _ => comparator_of_eq_some] at hl
  obtain ⟨q, hq, hx⟩ := srt.asks_all (Rsc.comparator w z) (List.mem_range.2 (not_le.1 hn))
    (List.mem_range.2 (show 0 < n by omega)) (by decide)
  obtain ⟨h₁, h₂⟩ := bounds_of_eq_some (hl.2 q hq)
  have hneg : ¬ 0 ≤ toInt (2 ^ 31) := by
    rw [toInt_nonneg_iff (by decide)]
    exact lt_irrefl _
  rcases hx with hx | hx
  · exact hneg (hx ▸ h₁)
  · exact hneg (hx ▸ h₂)

/-! ## The round -/

variable {srt : Sorter ℕ} {g : Graph} {s : State}

/-- **With `1` to `2 ^ 31` nodes** no access of a round is outside of its array. -/
theorem round_eq (hids : IdsBelow g.node_n g.edges) (hpos : 1 ≤ g.node_n)
    (hn : g.node_n ≤ 2 ^ 31) : round h srt g s = some (Rsc.round h (toStdSort srt) g s) := by
  have hperm := sort_indexes_isPerm (toStdSort srt) s.w (Rsc.spmv h g.edges s.w s.z s.it) s.indexes
    (n := g.node_n)
  have hlast : nodeT (g.node_n + (2 ^ 32 - 1)) = g.node_n - 1 := by
    unfold nodeT
    omega
  simp only [round, spmv_eq hids, make_indexes_eq, sort_indexes_of_le srt hn, gather_eq hperm,
    sum_eq hpos, reorder_eq hperm, hlast, Arr.read_of_lt _ (show g.node_n - 1 < g.node_n by omega),
    Option.bind_eq_bind, Option.bind_some]
  rfl

/-- **A round without an access outside** is one with `1` to `2 ^ 31` nodes. -/
theorem round_bounds {s' : State} (h' : round h srt g s = some s') :
    1 ≤ g.node_n ∧ g.node_n ≤ 2 ^ 31 := by
  simp only [round, make_indexes_eq, Option.bind_eq_bind, Option.bind_some,
    Option.bind_eq_some_iff] at h'
  obtain ⟨z, -, indexes, hsort, s_z, -, s_z', hsum, -⟩ := h'
  refine ⟨?_, le_of_sort_indexes srt hsort⟩
  obtain ⟨prec, hprec, -⟩ := Option.bind_eq_some_iff.1 hsum
  by_contra hpos
  rw [Arr.read, if_neg (show ¬ 0 < g.node_n from hpos)] at hprec
  cases hprec

end Checked

/-! ## Every round -/

/-- In every round all accesses are inside of the arrays, and it leaves a permutation in
`indexes`. -/
def InBounds (h : Word → Word) (srt : Sorter ℕ) (g : Graph) : Prop :=
  ∀ k s, AtRound h (toStdSort srt) g k s →
    Checked.round h srt g s = some (round h (toStdSort srt) g s) ∧
      IsPerm g.node_n (round h (toStdSort srt) g s).indexes

/-- **When `rsc` stays within its arrays**: with `1` to `2 ^ 31` nodes. -/
theorem in_bounds_iff (h : Word → Word) (srt : Sorter ℕ) {g : Graph}
    (hids : IdsBelow g.node_n g.edges) : InBounds h srt g ↔ 1 ≤ g.node_n ∧ g.node_n ≤ 2 ^ 31 := by
  constructor
  · exact fun hin => Checked.round_bounds (hin 0 _ .start).1
  · rintro ⟨hpos, hn⟩ k s -
    exact ⟨Checked.round_eq hids hpos hn, round_indexes_isPerm ..⟩

/-- Insertion, as a program that asks. -/
def insertion : Sorter ℕ where
  sort := Comparing.insertionSort
  perm lt _ l := by
    rw [Comparing.run_insertionSort]
    exact StdSort.insertion.perm lt l
  sorted lt _ l := by
    rw [Comparing.run_insertionSort]
    exact StdSort.insertion.sorted lt l
  asks _ _ _ := Comparing.asked_insertionSort

theorem edgeGraph_in_bounds : InBounds randomize insertion edgeGraph :=
  (in_bounds_iff randomize insertion (by decide)).2 (by decide)

/-- Without nodes, and with one node that is no `int`, the first round already leaves the arrays. -/
theorem emptyGraph_not_in_bounds : IdsBelow 0 [] ∧ ¬ InBounds randomize insertion ⟨0, []⟩ ∧
    ¬ InBounds randomize insertion ⟨2 ^ 31 + 1, []⟩ := by
  refine ⟨by decide, fun hin => ?_, fun hin => ?_⟩
  · obtain ⟨hpos, -⟩ := Checked.round_bounds (hin 0 _ .start).1
    exact absurd hpos (by decide)
  · obtain ⟨-, hn⟩ := Checked.round_bounds (hin 0 _ .start).1
    exact absurd hn (by decide)

end Rbsc.Rsc
