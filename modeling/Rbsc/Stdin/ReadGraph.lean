import Rbsc.Stdin.Bytes
import Rbsc.Export.Model

/-!
# `read_graph`

The readers of both programs have the same loop over the announced number of edges and differ in
what they do with a weight: `rsc` stores it in a `node_t` and checks the total, `rbsc` stores it as
it is.  The loop takes its numbers from a parameter `read`, which is `read_uint64` on the bytes of
the standard input or `next_number` on a list of numbers.  The arrays are allocated.

* `read_rows_rel`: readers that hand out the same numbers lead to the same result;
* `rbsc_returns`, `rsc_returns`: on which lists of numbers the two programs return;
* `read_graph_returns`: on which inputs they return.
-/

namespace Rbsc.Stdin

open Rsc

/-- The variables of the loop of `read_graph`. -/
structure Reading (σ : Type) where
  edges : List Edge
  tot_weight : ℕ
  stdin : σ

/-- How the loop ends. -/
inductive Rows (σ : Type) where
  | success (r : Reading σ)
  /-- `EXIT_FAILURE` at edge `i`. -/
  | failure (i : ℕ)

section

variable {σ : Type} (check : ℕ → ℕ → Option (ℕ × ℕ)) (read : σ → Option (ℕ × σ))

/-- The loop of `read_graph` over the next `todo` edges, from edge `i` on.  From the total before it
and the weight read, `check` makes the weight that is stored and the total behind it. -/
def read_rows : ℕ → ℕ → Reading σ → Option (Rows σ)
  | 0, _, r => some (.success r)
  | todo + 1, i, r => do
    let (edge_start, s) ← read r.stdin
    let (edge_weight, s) ← read s
    match check r.tot_weight edge_weight with
    | none => some (.failure i)
    | some (edge_weight, tot_weight) =>
      let (edge_end, s) ← read s
      read_rows todo (i + 1)
        { edges := r.edges ++ [⟨nodeT edge_start, nodeT edge_end, edge_weight⟩]
          tot_weight := tot_weight
          stdin := s }

/-- How `read_graph` ends. -/
inductive Returned (σ : Type) where
  | success (g : Graph) (tot_weight : ℕ) (stdin : σ)
  | failure (i : ℕ)

def Rows.returned (node_n : ℕ) : Rows σ → Returned σ
  | .success r => .success ⟨node_n, r.edges⟩ r.tot_weight r.stdin
  | .failure i => .failure i

def read_graph (s : σ) : Option (Returned σ) := do
  let (node_n, s) ← read s
  let (edge_n, s) ← read s
  let rows ← read_rows check read edge_n 0 { edges := [], tot_weight := 0, stdin := s }
  some (rows.returned (nodeT node_n))

end

/-- `CHECK_WEIGHT(tot_weight, (*edge_weight)[i])` and `tot_weight += (*edge_weight)[i]`. -/
def check_weight (tot_weight edge_weight : ℕ) : Option (ℕ × ℕ) :=
  let edge_weight := nodeT edge_weight
  if WEIGHT_MAX - tot_weight < edge_weight then none
  else some (edge_weight, nodeT (tot_weight + edge_weight))

/-- `rbsc` has no total and no check. -/
def no_check (tot_weight edge_weight : ℕ) : Option (ℕ × ℕ) := some (edge_weight, tot_weight)

variable {σ : Type}

/-- `read_graph` of `rsc`. -/
def rsc_read_graph : (read : σ → Option (ℕ × σ)) → σ → Option (Returned σ) :=
  read_graph check_weight

/-- `read_graph` of `rbsc`. -/
def rbsc_read_graph : (read : σ → Option (ℕ × σ)) → σ → Option (Returned σ) :=
  read_graph no_check

/-! ## The graph alone -/

def Rows.edges? : Rows σ → Option (List Edge)
  | .success r => some r.edges
  | .failure _ => none

def Returned.graph? : Returned σ → Option Graph
  | .success g _ _ => some g
  | .failure _ => none

theorem rows_edges (read : σ → Option (ℕ × σ)) (todo i : ℕ) (edges : List Edge) (tot_weight : ℕ)
    (s : σ) :
    (read_rows check_weight read todo i ⟨edges, tot_weight, s⟩).bind Rows.edges? =
      (read_edges read todo tot_weight s).map (edges ++ ·) := by
  induction todo generalizing i edges tot_weight s with
  | zero => simp [read_rows, read_edges, Rows.edges?]
  | succ todo ih =>
    rw [read_rows, read_edges]
    cases h₁ : read s with
    | none => rfl
    | some p₁ =>
      cases h₂ : read p₁.2 with
      | none => simp [h₂]
      | some p₂ =>
        by_cases hover : WEIGHT_MAX - tot_weight < nodeT p₂.1
        · simp [h₂, check_weight, hover, Rows.edges?]
        · cases h₃ : read p₂.2 with
          | none => simp [h₂, h₃, check_weight, hover]
          | some p₃ =>
            simp only [h₂, h₃, check_weight, if_neg hover, Option.bind_eq_bind, Option.bind_some, ih]
            cases read_edges read todo (nodeT (tot_weight + nodeT p₂.1)) p₃.2 <;> simp

/-- The graph that `read_graph` of `rsc` leaves, when it succeeds. -/
theorem rsc_graph (read : σ → Option (ℕ × σ)) (s : σ) :
    (rsc_read_graph read s).bind Returned.graph? = Rsc.read_graph read s := by
  rw [rsc_read_graph, read_graph, Rsc.read_graph]
  cases h₁ : read s with
  | none => rfl
  | some p₁ =>
    cases h₂ : read p₁.2 with
    | none => simp [h₂]
    | some p₂ =>
      have hrows := rows_edges read p₂.1 0 [] 0 p₂.2
      simp only [List.nil_append, Option.map_id'] at hrows
      simp only [h₂, Option.bind_eq_bind, Option.bind_some, ← hrows]
      cases read_rows check_weight read p₂.1 0 ⟨[], 0, p₂.2⟩ with
      | none => rfl
      | some rows => cases rows <;> rfl

/-! ## Readers that hand out the same numbers -/

section

variable {τ : Type} {read : σ → Option (ℕ × σ)} {read' : τ → Option (ℕ × τ)} {R : σ → τ → Prop}
  {check : ℕ → ℕ → Option (ℕ × ℕ)}

/-- What `read` hands out, `read'` hands out too. -/
def Simulates (R : σ → τ → Prop) (read : σ → Option (ℕ × σ)) (read' : τ → Option (ℕ × τ)) : Prop :=
  ∀ s t x s', R s t → read s = some (x, s') → ∃ t', read' t = some (x, t') ∧ R s' t'

/-- The same end of the loop, up to what is left of the input. -/
inductive Rows.Same (R : σ → τ → Prop) : Rows σ → Rows τ → Prop
  | success {edges : List Edge} {tot_weight : ℕ} {s : σ} {t : τ} (h : R s t) :
      Same R (.success ⟨edges, tot_weight, s⟩) (.success ⟨edges, tot_weight, t⟩)
  | failure {i : ℕ} : Same R (.failure i) (.failure i)

inductive Returned.Same (R : σ → τ → Prop) : Returned σ → Returned τ → Prop
  | success {g : Graph} {tot_weight : ℕ} {s : σ} {t : τ} (h : R s t) :
      Same R (.success g tot_weight s) (.success g tot_weight t)
  | failure {i : ℕ} : Same R (.failure i) (.failure i)

theorem read_rows_rel (hR : Simulates R read read') {todo i : ℕ} {edges : List Edge}
    {tot_weight : ℕ} {s : σ} {t : τ} {rows : Rows σ} (hst : R s t)
    (h : read_rows check read todo i ⟨edges, tot_weight, s⟩ = some rows) :
    ∃ rows', read_rows check read' todo i ⟨edges, tot_weight, t⟩ = some rows' ∧
      rows.Same R rows' := by
  induction todo generalizing i edges tot_weight s t with
  | zero =>
    cases h
    exact ⟨_, rfl, .success hst⟩
  | succ todo ih =>
    obtain ⟨⟨edge_start, s₁⟩, h₁, h⟩ := Option.bind_eq_some_iff.1 h
    obtain ⟨⟨edge_weight, s₂⟩, h₂, h⟩ := Option.bind_eq_some_iff.1 h
    obtain ⟨t₁, h₁', hR₁⟩ := hR _ _ _ _ hst h₁
    obtain ⟨t₂, h₂', hR₂⟩ := hR _ _ _ _ hR₁ h₂
    simp only [read_rows, h₁', h₂', Option.bind_eq_bind, Option.bind_some]
    cases hc : check tot_weight edge_weight with
    | none =>
      simp only [hc] at h
      cases h
      exact ⟨_, rfl, .failure⟩
    | some p =>
      simp only [hc] at h
      obtain ⟨⟨edge_end, s₃⟩, h₃, h⟩ := Option.bind_eq_some_iff.1 h
      obtain ⟨t₃, h₃', hR₃⟩ := hR _ _ _ _ hR₂ h₃
      simp only [h₃', Option.bind_some]
      exact ih hR₃ h

theorem read_graph_rel (hR : Simulates R read read') {s : σ} {t : τ} {ret : Returned σ}
    (hst : R s t) (h : read_graph check read s = some ret) :
    ∃ ret', read_graph check read' t = some ret' ∧ ret.Same R ret' := by
  obtain ⟨⟨node_n, s₁⟩, h₁, h⟩ := Option.bind_eq_some_iff.1 h
  obtain ⟨⟨edge_n, s₂⟩, h₂, h⟩ := Option.bind_eq_some_iff.1 h
  obtain ⟨rows, h₃, h⟩ := Option.bind_eq_some_iff.1 h
  cases h
  obtain ⟨t₁, h₁', hR₁⟩ := hR _ _ _ _ hst h₁
  obtain ⟨t₂, h₂', hR₂⟩ := hR _ _ _ _ hR₁ h₂
  obtain ⟨rows', h₃', hsame⟩ := read_rows_rel hR hR₂ h₃
  refine ⟨rows'.returned (nodeT node_n), ?_, ?_⟩
  · simp only [read_graph, h₁', h₂', h₃', Option.bind_eq_bind, Option.bind_some]
  · cases hsame with
    | success hR₃ => exact .success hR₃
    | failure => exact .failure

end

/-- The bytes of the input hand out its numbers. -/
theorem simulates_numbers (fuel : ℕ) :
    Simulates (fun s l => numbers s = l) (read_uint64 fuel) next_number := by
  rintro s _ x s' rfl h
  exact ⟨numbers s', by rw [numbers_of_read h]; rfl, rfl⟩

theorem simulates_bytes (fuel : ℕ) :
    Simulates (fun l s => numbers s = l ∧ s.length ≤ fuel) next_number (read_uint64 fuel) := by
  rintro l s x l' ⟨hl, hfuel⟩ h
  cases l with
  | nil => cases h
  | cons y l =>
    cases h
    obtain ⟨rest, hread, hrest, hlen⟩ := read_of_numbers hl hfuel
    exact ⟨rest, hread, hrest, hlen⟩

/-- Whether `read_graph` returns depends on the numbers of the input only. -/
theorem read_graph_returns (check : ℕ → ℕ → Option (ℕ × ℕ)) (stdin : List Byte) :
    (∃ fuel ret, read_graph check (read_uint64 fuel) stdin = some ret) ↔
      ∃ ret, read_graph check next_number (numbers stdin) = some ret := by
  constructor
  · rintro ⟨fuel, ret, h⟩
    obtain ⟨ret', h', -⟩ := read_graph_rel (simulates_numbers fuel) rfl h
    exact ⟨ret', h'⟩
  · rintro ⟨ret, h⟩
    obtain ⟨ret', h', -⟩ := read_graph_rel (simulates_bytes stdin.length) ⟨rfl, le_rfl⟩ h
    exact ⟨stdin.length, ret', h'⟩

/-! ## On which numbers they return -/

/-- The sum of the first `k` weights, as `rsc` stores them. -/
def weightSum (rest : List ℕ) (k : ℕ) : ℕ := ∑ j ∈ Finset.range k, nodeT (rest.getD (3 * j + 1) 0)

/-- The numbers announce the edges that they hold. -/
def AllRows (nums : List ℕ) : Prop :=
  ∃ node_n edge_n rest, nums = node_n :: edge_n :: rest ∧ 3 * edge_n ≤ rest.length

/-- The numbers up to the weight of an announced edge are there, and the total with this weight is
above the limit. -/
def OverLimit (nums : List ℕ) : Prop :=
  ∃ node_n edge_n rest, nums = node_n :: edge_n :: rest ∧
    ∃ i < edge_n, 3 * i + 2 ≤ rest.length ∧ WEIGHT_MAX < weightSum rest (i + 1)

theorem weightSum_succ (a w b : ℕ) (rest : List ℕ) (k : ℕ) :
    weightSum (a :: w :: b :: rest) (k + 1) = nodeT w + weightSum rest k := by
  rw [weightSum, Finset.sum_range_succ', add_comm]
  rfl

/-- The rows `rbsc` needs. -/
theorem rbsc_rows {rest : List ℕ} {todo i : ℕ} {edges : List Edge} {tot_weight : ℕ} :
    (∃ rows, read_rows no_check next_number todo i ⟨edges, tot_weight, rest⟩ = some rows) ↔
      3 * todo ≤ rest.length := by
  induction todo generalizing rest i edges with
  | zero => simp [read_rows]
  | succ todo ih =>
    match rest with
    | [] | [_] | [_, _] => simp [read_rows, no_check, next_number]; try omega
    | a :: w :: b :: rest =>
      simp only [read_rows, no_check, next_number_cons, Option.bind_eq_bind, Option.bind_some,
        List.length_cons, ih]
      omega

/-- The rows `rsc` needs, from a total below the limit on. -/
theorem rsc_rows {rest : List ℕ} {todo i : ℕ} {edges : List Edge} {tot_weight : ℕ}
    (htot : tot_weight ≤ WEIGHT_MAX) :
    (∃ rows, read_rows check_weight next_number todo i ⟨edges, tot_weight, rest⟩ = some rows) ↔
      3 * todo ≤ rest.length ∨
        ∃ i < todo, 3 * i + 2 ≤ rest.length ∧ WEIGHT_MAX < tot_weight + weightSum rest (i + 1) := by
  induction todo generalizing rest i edges tot_weight with
  | zero => simp [read_rows]
  | succ todo ih =>
    match rest with
    | [] | [_] => simp [read_rows, next_number]; try omega
    | [a, w] =>
      have hsum : weightSum [a, w] 1 = nodeT w := by simp [weightSum]
      by_cases hover : WEIGHT_MAX - tot_weight < nodeT w
      · simp only [read_rows, check_weight, next_number_cons, Option.bind_eq_bind, Option.bind_some,
          if_pos hover, List.length_cons, List.length_nil]
        refine iff_of_true ⟨_, rfl⟩ (Or.inr ⟨0, by omega, by omega, ?_⟩)
        rw [zero_add, hsum]
        omega
      · simp only [read_rows, check_weight, next_number, Option.bind_eq_bind, Option.bind_some,
          if_neg hover, Option.bind_none, List.length_cons, List.length_nil]
        apply iff_of_false (by simp)
        rintro (h | ⟨i, -, hi, h⟩)
        · omega
        · obtain rfl : i = 0 := by omega
          rw [zero_add, hsum] at h
          omega
    | a :: w :: b :: rest =>
      by_cases hover : WEIGHT_MAX - tot_weight < nodeT w
      · simp only [read_rows, check_weight, next_number_cons, Option.bind_eq_bind, Option.bind_some,
          if_pos hover]
        refine iff_of_true ⟨_, rfl⟩ (Or.inr ⟨0, by omega, by simp, ?_⟩)
        rw [weightSum_succ]
        omega
      · have hle : tot_weight + nodeT w ≤ WEIGHT_MAX := by omega
        have hnext : nodeT (tot_weight + nodeT w) = tot_weight + nodeT w :=
          nodeT_of_lt (by unfold WEIGHT_MAX at hle; omega)
        simp only [read_rows, check_weight, next_number_cons, Option.bind_eq_bind, Option.bind_some,
          if_neg hover, hnext, ih hle, List.length_cons]
        refine or_congr (by omega) ⟨?_, ?_⟩
        · rintro ⟨i, hi, hlen, h⟩
          exact ⟨i + 1, by omega, by omega, by rw [weightSum_succ]; omega⟩
        · rintro ⟨i, hi, hlen, h⟩
          rw [weightSum_succ] at h
          cases i with
          | zero =>
            rw [weightSum, Finset.sum_range_zero] at h
            omega
          | succ i => exact ⟨i, by omega, by omega, by omega⟩

/-- The two numbers at the start, and the rows. -/
theorem returns_iff (check : ℕ → ℕ → Option (ℕ × ℕ)) (nums : List ℕ) :
    (∃ ret, read_graph check next_number nums = some ret) ↔
      ∃ node_n edge_n rest, nums = node_n :: edge_n :: rest ∧
        ∃ rows, read_rows check next_number edge_n 0 ⟨[], 0, rest⟩ = some rows := by
  match nums with
  | [] | [_] => simp [read_graph, next_number]
  | node_n :: edge_n :: rest =>
    constructor
    · rintro ⟨ret, h⟩
      obtain ⟨rows, hrows, -⟩ := Option.bind_eq_some_iff.1 h
      exact ⟨node_n, edge_n, rest, rfl, rows, hrows⟩
    · rintro ⟨_, _, _, heq, rows, hrows⟩
      cases heq
      exact ⟨rows.returned (nodeT node_n), by simp [read_graph, hrows]⟩

theorem rbsc_returns (nums : List ℕ) :
    (∃ ret, rbsc_read_graph next_number nums = some ret) ↔ AllRows nums := by
  rw [rbsc_read_graph, returns_iff]
  simp only [rbsc_rows]
  rfl

theorem rsc_returns (nums : List ℕ) :
    (∃ ret, rsc_read_graph next_number nums = some ret) ↔ AllRows nums ∨ OverLimit nums := by
  rw [rsc_read_graph, returns_iff]
  simp only [rsc_rows (Nat.zero_le WEIGHT_MAX), Nat.zero_add, and_or_left, exists_or]
  rfl

/-- **On which inputs the readers return.** -/
theorem read_graphs_return_iff (stdin : List Byte) :
    ((∃ fuel ret, rsc_read_graph (read_uint64 fuel) stdin = some ret) ↔
        AllRows (numbers stdin) ∨ OverLimit (numbers stdin)) ∧
      ((∃ fuel ret, rbsc_read_graph (read_uint64 fuel) stdin = some ret) ↔
        AllRows (numbers stdin)) :=
  ⟨(read_graph_returns check_weight stdin).trans (rsc_returns _),
    (read_graph_returns no_check stdin).trans (rbsc_returns _)⟩

/-- On an empty input both readers wait for ever. -/
theorem read_graphs_empty :
    (¬ ∃ fuel ret, rsc_read_graph (read_uint64 fuel) [] = some ret) ∧
      ¬ ∃ fuel ret, rbsc_read_graph (read_uint64 fuel) [] = some ret := by
  have h : ∀ fuel, read_uint64 fuel [] = none := read_uint64_none (by simp)
  simp [rsc_read_graph, rbsc_read_graph, read_graph, h]

end Rbsc.Stdin
