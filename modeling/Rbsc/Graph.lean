import Rbsc.Hash
import Rbsc.Lib.Lumping
import Rbsc.Lib.Rank

/-!
# The graph and its backward equivalence

Both programs hold the graph as three parallel arrays, one entry an edge: `edge_start`, `edge_end`
and `edge_weight`.  The *backward equivalence* (BE) partitions are the stable ones of the weights of
this graph; `beClasses` is the number of classes of the coarsest.

* `Grouped`: the edges of one source stand together, as `spmv`, the windows and the quotient assume;
* `edgeWeight`, `weights`: the total weight from a node to a node;
* `hashSum`: the sum modulo `2 ^ 64` that both programs form for a node;
* `hashSum_eq_of_sameWeights`: nodes with the same weights into every class have the same sum.
-/

namespace Rbsc

open Lumping DenseRank

/-- Conversion to `node_t`, that is `uint32_t`. -/
def nodeT (x : ℕ) : ℕ := x % 2 ^ 32

theorem nodeT_of_lt {x : ℕ} (h : x < 2 ^ 32) : nodeT x = x := Nat.mod_eq_of_lt h

/-- One entry of the edge arrays. -/
structure Edge where
  edge_start : ℕ
  edge_end : ℕ
  edge_weight : ℕ
deriving DecidableEq, Repr, Inhabited

/-- What `read_graph` leaves in memory; `edge_n` is the length of the list. -/
structure Graph where
  node_n : ℕ
  edges : List Edge
deriving DecidableEq, Repr

/-- Entry `i` of the edge arrays. -/
def edgeAt (edges : List Edge) (i : ℕ) : Edge := edges.getD i default

/-- `edge_start[i]`. -/
def startAt (edges : List Edge) (i : ℕ) : ℕ := (edgeAt edges i).edge_start

/-- All ids are below `n`. -/
def IdsBelow (n : ℕ) (edges : List Edge) : Prop := ∀ e ∈ edges, e.edge_start < n ∧ e.edge_end < n

instance (n : ℕ) (edges : List Edge) : Decidable (IdsBelow n edges) := by
  unfold IdsBelow; infer_instance

/-- Between two edges of one source stand only edges of this source. -/
def Grouped (edges : List Edge) : Prop :=
  ∀ k < edges.length, ∀ j < k, ∀ i < j,
    startAt edges i = startAt edges k → startAt edges j = startAt edges k

instance (edges : List Edge) : Decidable (Grouped edges) := by unfold Grouped; infer_instance

/-- The node has an outgoing edge. -/
def IsSource (edges : List Edge) (u : ℕ) : Prop := ∃ e ∈ edges, e.edge_start = u

instance (edges : List Edge) (u : ℕ) : Decidable (IsSource edges u) := by
  unfold IsSource; infer_instance

/-- The exact total of all weights. -/
def totalWeight (edges : List Edge) : ℕ := (edges.map Edge.edge_weight).sum

/-- All weights are positive. -/
def PosWeights (edges : List Edge) : Prop := ∀ e ∈ edges, 0 < e.edge_weight

instance (edges : List Edge) : Decidable (PosWeights edges) := by unfold PosWeights; infer_instance

theorem edgeAt_eq {edges : List Edge} {i : ℕ} (h : i < edges.length) :
    edgeAt edges i = edges[i] := List.getD_eq_getElem _ _ h

theorem startAt_eq {edges : List Edge} {i : ℕ} (h : i < edges.length) :
    startAt edges i = edges[i].edge_start :=
  congrArg Edge.edge_start (edgeAt_eq h)

theorem isSource_iff {edges : List Edge} {u : ℕ} :
    IsSource edges u ↔ ∃ i < edges.length, startAt edges i = u := by
  constructor
  · rintro ⟨e, he, rfl⟩
    obtain ⟨i, hi, rfl⟩ := List.getElem_of_mem he
    exact ⟨i, hi, startAt_eq hi⟩
  · rintro ⟨i, hi, rfl⟩
    exact ⟨edges[i], List.getElem_mem hi, (startAt_eq hi).symm⟩

theorem take_succ_edges {edges : List Edge} {m : ℕ} (h : m < edges.length) :
    edges.take (m + 1) = edges.take m ++ [edgeAt edges m] := by
  rw [edgeAt_eq h, List.take_add_one, List.getElem?_eq_getElem h, Option.toList_some]

/-- The sources of the first `m` edges. -/
theorem isSource_take {edges : List Edge} {m : ℕ} (hm : m ≤ edges.length) {u : ℕ} :
    IsSource (edges.take m) u ↔ ∃ i < m, startAt edges i = u := by
  rw [isSource_iff, List.length_take, Nat.min_eq_left hm]
  refine exists_congr fun i => and_congr_right fun hi => ?_
  rw [startAt_eq (by rw [List.length_take]; omega), List.getElem_take, startAt_eq (by omega)]

/-- The first edge of a group: its source has no edge before it. -/
theorem Grouped.not_isSource_take {edges : List Edge} (hg : Grouped edges) {m : ℕ}
    (hm : m < edges.length) (hb : m = 0 ∨ startAt edges m ≠ startAt edges (m - 1)) :
    ¬ IsSource (edges.take m) (startAt edges m) := by
  rw [isSource_take hm.le]
  rintro ⟨i, hi, hi'⟩
  rcases hb with rfl | hb
  · omega
  · by_cases him : i = m - 1
    · exact hb (him ▸ hi'.symm)
    · exact hb (hg m hm (m - 1) (by omega) i (by omega) hi').symm

/-! ## Weights -/

/-- The total weight of the edges from `u` to `v`. -/
def edgeWeight (edges : List Edge) (u v : ℕ) : ℕ :=
  ((edges.filter fun e => e.edge_start = u ∧ e.edge_end = v).map Edge.edge_weight).sum

@[simp] theorem edgeWeight_nil (u v : ℕ) : edgeWeight [] u v = 0 := rfl

theorem edgeWeight_cons (e : Edge) (edges : List Edge) (u v : ℕ) :
    edgeWeight (e :: edges) u v =
      (if e.edge_start = u ∧ e.edge_end = v then e.edge_weight else 0) + edgeWeight edges u v := by
  unfold edgeWeight
  by_cases h : e.edge_start = u ∧ e.edge_end = v <;> simp [h]

theorem edgeWeight_append (l₁ l₂ : List Edge) (u v : ℕ) :
    edgeWeight (l₁ ++ l₂) u v = edgeWeight l₁ u v + edgeWeight l₂ u v := by
  simp [edgeWeight, List.filter_append]

theorem edgeWeight_eq_zero {edges : List Edge} {u : ℕ} (h : ¬ IsSource edges u) (v : ℕ) :
    edgeWeight edges u v = 0 := by
  have : (edges.filter fun e => e.edge_start = u ∧ e.edge_end = v) = [] :=
    List.filter_eq_nil_iff.2 fun e he hb => h ⟨e, he, (of_decide_eq_true hb).1⟩
  rw [edgeWeight, this]
  rfl

/-- The weights between the first `n` nodes. -/
def weights (edges : List Edge) (n : ℕ) (u v : Fin n) : ℕ := edgeWeight edges u v

/-- The partition of the nodes by their label. -/
def labelPartition {L : Type*} (n : ℕ) (label : ℕ → L) : Setoid (Fin n) :=
  Setoid.ker fun v : Fin n => label v

theorem labelPartition_iff {L : Type*} {n : ℕ} {label : ℕ → L} {u v : Fin n} :
    labelPartition n label u v ↔ label u = label v := Iff.rfl

theorem classCount_labelPartition {κ : Type*} [LinearOrder κ] (n : ℕ) (key : ℕ → κ) :
    classCount (labelPartition n key) = keyCount key n := by
  unfold classCount labelPartition
  have hrange : Set.range (fun v : Fin n => key v) = ↑(keys key n) := by
    ext k
    simp only [Set.mem_range, Finset.mem_coe, mem_keys]
    exact ⟨fun ⟨v, hv⟩ => ⟨v, v.2, hv⟩, fun ⟨v, hv, hk⟩ => ⟨⟨v, hv⟩, hk⟩⟩
  rw [Nat.card_congr (Setoid.quotientKerEquivRange _), Nat.card_coe_set_eq, hrange,
    Set.ncard_coe_finset, keyCount]

/-- The coarsest backward-equivalence partition of the graph. -/
noncomputable def coarsestBE (g : Graph) : Setoid (Fin g.node_n) :=
  coarsest (weights g.edges g.node_n) ⊤

/-- The number of its classes. -/
noncomputable def beClasses (g : Graph) : ℕ := classCount (coarsestBE g)

/-! ## Hash sums -/

/-- The sum modulo `2 ^ 64` of `f (edge_end) * edge_weight` over the edges of `u`. -/
def hashSum (edges : List Edge) (f : ℕ → Word) (u : ℕ) : Word :=
  ((edges.filter fun e => e.edge_start = u).map fun e => f e.edge_end * (e.edge_weight : Word)).sum

theorem hashSum_cons (e : Edge) (edges : List Edge) (f : ℕ → Word) (u : ℕ) :
    hashSum (e :: edges) f u =
      (if e.edge_start = u then f e.edge_end * (e.edge_weight : Word) else 0) +
        hashSum edges f u := by
  unfold hashSum
  by_cases h : e.edge_start = u <;> simp [h]

@[simp] theorem hashSum_nil (f : ℕ → Word) (u : ℕ) : hashSum [] f u = 0 := rfl

theorem hashSum_append (l₁ l₂ : List Edge) (f : ℕ → Word) (u : ℕ) :
    hashSum (l₁ ++ l₂) f u = hashSum l₁ f u + hashSum l₂ f u := by
  simp [hashSum, List.filter_append]

theorem hashSum_perm {l₁ l₂ : List Edge} (h : l₁.Perm l₂) (f : ℕ → Word) (u : ℕ) :
    hashSum l₁ f u = hashSum l₂ f u := ((h.filter _).map _).sum_eq

theorem hashSum_eq_zero {edges : List Edge} {u : ℕ} (h : ¬ IsSource edges u) (f : ℕ → Word) :
    hashSum edges f u = 0 := by
  have : (edges.filter fun e => e.edge_start = u) = [] :=
    List.filter_eq_nil_iff.2 fun e he hb => h ⟨e, he, of_decide_eq_true hb⟩
  simp [hashSum, this]

/-- The hash sum, as a sum over the target nodes. -/
theorem hashSum_eq_sum {n : ℕ} {edges : List Edge} (hids : IdsBelow n edges) (f : ℕ → Word)
    (u : ℕ) : hashSum edges f u = ∑ y : Fin n, f y * (edgeWeight edges u y : Word) := by
  induction edges with
  | nil => simp [hashSum]
  | cons e edges ih =>
    rw [hashSum_cons, ih fun e' he' => hids e' (List.mem_cons_of_mem _ he')]
    simp only [edgeWeight_cons, Nat.cast_add, mul_add, Finset.sum_add_distrib]
    congr 1
    by_cases hu : e.edge_start = u
    · have hend := (hids e (List.mem_cons_self ..)).2
      rw [Finset.sum_eq_single ⟨e.edge_end, hend⟩]
      · simp [hu]
      · intro y _ hy
        have : ¬ (e.edge_start = u ∧ e.edge_end = y) := fun h => hy (Fin.ext h.2.symm)
        simp [this]
      · simp
    · simp [hu]

/-- **A hash sum sees only classes.** -/
theorem hashSum_eq_of_sameWeights {n : ℕ} {edges : List Edge} (hids : IdsBelow n edges)
    {r : Setoid (Fin n)} {f : ℕ → Word} (hf : ∀ y y' : Fin n, r y y' → f y = f y') {u v : Fin n}
    (h : SameWeights (weights edges n) r u v) : hashSum edges f u = hashSum edges f v := by
  rw [hashSum_eq_sum hids, hashSum_eq_sum hids]
  exact h.sum_eq (fun y => (AddMonoidHom.mulLeft (f y)).comp (Nat.castAddMonoidHom Word))
    fun y y' hy => by rw [hf y y' hy]

end Rbsc
