import Rbsc.Graph
import Rbsc.Lib.Loop
import Rbsc.Lib.Arrays

/-!
# `rsc`: the sequential program

The functions of `rsc.cpp` on arrays, and the `do … while` loop of its `main`.  The mixing function
is a parameter `h`, so that a statement can leave its values open.  `std::sort` promises a
rearrangement in the order of its comparator and nothing about the order of ties, so it is the
parameter `StdSort`.
-/

namespace Rbsc.Rsc

open Arrays DoWhile

/-- `std::sort`: for a strict weak order it rearranges the range, and no item comes after one that
it is smaller than. -/
structure StdSort where
  sort : (ℕ → ℕ → Bool) → List ℕ → List ℕ
  perm : ∀ lt [IsStrictWeakOrder ℕ fun a b => lt a b = true] l, (sort lt l).Perm l
  sorted : ∀ lt [IsStrictWeakOrder ℕ fun a b => lt a b = true] l,
    (sort lt l).Pairwise fun a b => lt b a = false

/-- One `std::sort`: insertion. -/
def StdSort.insertion : StdSort where
  sort lt l := l.insertionSort fun a b => lt b a = false
  perm lt _ l := List.perm_insertionSort _ l
  sorted lt hlt l := by
    have hasymm : ∀ a b, lt a b = true → lt b a = false := fun a b hab => by
      by_contra hba
      exact hlt.irrefl a (hlt.trans a b a hab (by simpa using hba))
    have htot : Std.Total fun a b => lt b a = false := ⟨fun a b => by
      cases h : lt b a with
      | false => exact Or.inl rfl
      | true => exact Or.inr (hasymm b a h)⟩
    have htr : IsTrans ℕ fun a b => lt b a = false := ⟨fun a b c hba hcb => by
      by_contra hca
      have hca : lt c a = true := by simpa using hca
      cases hab : lt a b with
      | true =>
        have := hlt.trans c a b hca hab
        simp [hcb] at this
      | false =>
        cases hbc : lt b c with
        | true =>
          have := hlt.trans b c a hbc hca
          simp [hba] at this
        | false =>
          have := (hlt.incomp_trans a b c (by simp [hab, hba]) (by simp [hbc, hcb])).2
          exact this hca⟩
    exact List.pairwise_insertionSort _ l

/-! ## The functions -/

/-- The body of the loop of `spmv`. -/
def spmv_step (h : Word → Word) (edges : List Edge) (w : Arr Word) (it : Word) (z : Arr Word)
    (i : ℕ) : Arr Word :=
  let e := edgeAt edges i
  let z := if i = 0 ∨ e.edge_start ≠ startAt edges (i - 1) then z.set e.edge_start 0 else z
  z.set e.edge_start (z e.edge_start + h (w e.edge_end + it) * (e.edge_weight : Word))

/-- `spmv`: the sums are added up edge by edge, from `0` at the first edge of a group. -/
def spmv (h : Word → Word) (edges : List Edge) (w z : Arr Word) (it : Word) : Arr Word :=
  (List.range edges.length).foldl (spmv_step h edges w it) z

/-- `make_indexes`. -/
def make_indexes (indexes : Arr ℕ) (node_n : ℕ) : Arr ℕ := fill node_n id indexes

/-- The conversion of an index to the comparator's `int` parameter. -/
def toInt (i : ℕ) : ℤ := (BitVec.ofNat 32 i).toInt

/-- `a[i]` for an `int` index.  No result below reads a negative one, which is outside the array. -/
def atInt (a : Arr Word) (i : ℤ) : Word := if 0 ≤ i then a i.toNat else 0

/-- The comparator of `main`. -/
def comparator (w z : Arr Word) (i k : ℕ) : Bool :=
  let i := toInt i
  let k := toInt k
  atInt z i < atInt z k || (atInt z i == atInt z k && atInt w i < atInt w k)

/-- `std::sort(indexes, indexes + node_n, comparator)`. -/
def sort_indexes (srt : StdSort) (w z : Arr Word) (indexes : Arr ℕ) (node_n : ℕ) : Arr ℕ :=
  store (srt.sort (comparator w z) (toList node_n indexes)) indexes

/-- `gather`. -/
def gather (s_z z : Arr Word) (indexes : Arr ℕ) (node_n : ℕ) : Arr Word :=
  fill node_n (fun i => z (indexes i)) s_z

/-- The variables of `sum`. -/
structure SumState where
  s_z : Arr Word
  prec : Word
  cur : ℕ

/-- The body of the loop of `sum`. -/
def sum_step (st : SumState) (i : ℕ) : SumState :=
  let cur := if st.s_z i ≠ st.prec then nodeT (st.cur + 1) else st.cur
  { s_z := st.s_z.set i (cur : Word), prec := st.s_z i, cur := cur }

/-- `sum`: a new class where the sorted sums change, whatever the old labels are. -/
def sum (s_z : Arr Word) (node_n : ℕ) : Arr Word :=
  ((List.range' 1 (node_n - 1)).foldl sum_step
    { s_z := s_z.set 0 0, prec := s_z 0, cur := 0 }).s_z

/-- `reorder`. -/
def reorder (w s_z : Arr Word) (indexes : Arr ℕ) (node_n : ℕ) : Arr Word :=
  scatter node_n indexes s_z w

/-! ## The loop -/

/-- The variables of `main` that the loop changes. -/
structure State where
  w : Arr Word
  z : Arr Word
  s_z : Arr Word
  indexes : Arr ℕ
  it : Word
  node_n : ℕ
  new_node_n : ℕ

/-- The variables before the loop. -/
def init (g : Graph) : State where
  w := fill g.node_n (fun _ => 1) (.const 0)
  z := .const 0
  s_z := .const 0
  indexes := .const 0
  it := 0
  node_n := g.node_n
  new_node_n := g.node_n

/-- The body of the loop. -/
def round (h : Word → Word) (srt : StdSort) (g : Graph) (s : State) : State :=
  let start_node_n := g.node_n
  let z := spmv h g.edges s.w s.z s.it
  let indexes := sort_indexes srt s.w z (make_indexes s.indexes start_node_n) start_node_n
  let s_z := sum (gather s.s_z z indexes start_node_n) start_node_n
  { w := reorder s.w s_z indexes start_node_n
    z := z
    s_z := s_z
    indexes := indexes
    it := s.it + 1
    node_n := s.new_node_n
    new_node_n := nodeT ((s_z (start_node_n - 1)).toNat + 1) }

/-- The condition of the loop. -/
def again (s : State) : Bool := s.node_n ≠ s.new_node_n

/-- The loop of `main`, given up after `fuel` rounds; `new_node_n` is what is printed. -/
def rsc (h : Word → Word) (srt : StdSort) (g : Graph) (fuel : ℕ) : Option State :=
  doWhile (fun s => some (round h srt g s)) again fuel (init g)

/-- The state at the start of round `k`. -/
abbrev AtRound (h : Word → Word) (srt : StdSort) (g : Graph) : ℕ → State → Prop :=
  Entered (fun s => some (round h srt g s)) again (init g)

/-- A graph that `read_graph` accepts and `main` can index: the weights are `uint32_t` and their
total passes `CHECK_WEIGHT`, the ids are below `node_n`, and every node is an `int`. -/
structure Accepted (g : Graph) : Prop where
  node_pos : 1 ≤ g.node_n
  node_le : g.node_n ≤ 2 ^ 31
  ids : IdsBelow g.node_n g.edges
  total : totalWeight g.edges ≤ 2 ^ 32 - 1

end Rbsc.Rsc
