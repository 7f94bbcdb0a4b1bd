import Rbsc.PartRef.Exact
import Rbsc.Export.Model

/-!
# `part_ref`: the input

`MDP_read` with its checks and the `store_` functions that it calls, on numbers that a reader hands
out one by one.  An error aborts the program, so it is `none` here; the texts of the errors are left
out.  Of the checks of array indices those are kept that `store_` functions can fail: an array of
`ms + 1` entries has none when `ms` is `2 ^ 32 - 1`.

* `MDP_read_rows`: what `MDP_read` makes of the numbers of an export, from any reader;
* `MDP_read_to_csv`: from a reader that hands out the numbers as they are, all arcs of the graph,
  with both ends shifted by one.
-/

namespace Rbsc.PartRef

open Arrays ForLoop Lumping

/-- The services of `reader.cc` that `MDP_read` uses. -/
structure Reader (σ : Type) where
  nat : σ → Option (ℕ × σ)
  intgr : σ → Option (ℤ × σ)

/-- The reader of a text that is given by its numbers. -/
def numbers : Reader (List ℕ) where
  nat := next_number
  intgr s := (next_number s).map fun p => ((p.1 : ℤ), p.2)

section

variable {σ : Type} (input : Reader σ)

/-- `bad_st`. -/
def bad_st (nr_states st : ℕ) : Prop := st < 1 ∨ nr_states < st

instance (nr_states st : ℕ) : Decidable (bad_st nr_states st) := by unfold bad_st; infer_instance

/-- `max1` of an array after `make_size`. -/
def make_size (ms : ℕ) : ℕ := nodeT (ms + 1)

/-- The loop over the labelled transitions. -/
def read_l_transitions (nr_states nr_labels : ℕ) : ℕ → σ → Option (List LTransition × σ)
  | 0, s => some ([], s)
  | tr + 1, s => do
    let (st1, s) ← input.nat s
    if bad_st nr_states st1 then none
    let (lb, s) ← input.nat s
    if lb < 1 ∨ nr_labels < lb then none
    let (st2, s) ← input.nat s
    if bad_st nr_states st2 then none
    let (ts, s) ← read_l_transitions nr_states nr_labels tr s
    some (⟨st1, lb, st2⟩ :: ts, s)

/-- The loop over the next `tr` weighed transitions; `max1` is the size of the arrays. -/
def read_w_transitions (nr_states max1 : ℕ) : ℕ → ℕ → σ → Option (List WTransition × σ)
  | 0, _, s => some ([], s)
  | tr + 1, w_cnt, s => do
    let (st1, s) ← input.nat s
    if bad_st nr_states st1 then none
    let (wg, s) ← input.intgr s
    let (st2, s) ← input.nat s
    if bad_st nr_states st2 then none
    -- `store_w_transition`
    let w_cnt := w_cnt + 1
    if max1 ≤ w_cnt then none
    let (ts, s) ← read_w_transitions nr_states max1 tr w_cnt s
    some (⟨st1, wg, st2⟩ :: ts, s)

/-- The states of block `bl` up to the number `0`, stored by `store_block`: a state that is in a
block other than the first is an error. -/
def read_block (nr_states bl : ℕ) : ℕ → Arr ℕ → σ → Option (Arr ℕ × σ)
  | 0, _, _ => none
  | fuel + 1, sets, s => do
    let (st, s) ← input.nat s
    if st = 0 then some (sets, s)
    else if nr_states < st then none
    else if make_size nr_states ≤ st then none
    else if sets st ≠ 1 then none
    else read_block nr_states bl fuel (sets.set st bl) s

/-- The loop over the initial blocks from block `bl` on; block one is what remains. -/
def read_blocks (nr_states fuel : ℕ) : ℕ → ℕ → Arr ℕ → σ → Option (Arr ℕ × σ)
  | 0, _, sets, s => some (sets, s)
  | more + 1, bl, sets, s => do
    let (sets, s) ← read_block input nr_states bl fuel sets s
    read_blocks nr_states fuel more (bl + 1) sets s

/-- Before the blocks are read every state is in block one. -/
theorem first_block {n st : ℕ} (hst : Num n st) :
    (List.Ico 1 (n + 1)).foldl (fun (sets : Arr ℕ) st => sets.set st 1) (.const 0) st = 1 := by
  have hmem : st ∈ List.Ico 1 (n + 1) := List.Ico.mem.2 ⟨hst.1, Nat.lt_succ_of_le hst.2⟩
  exact (Arr.foldl_set_const _ _ st).trans (if_pos hmem)

/-- `nr_l_max1`. -/
def nr_l_max1 : ℕ := 2 ^ 31

/-- `MDP_read`.  A block with more than `fuel` numbers is given up. -/
def MDP_read (fuel : ℕ) (s : σ) : Option MDP := do
  let (nr_states, s) ← input.nat s
  let (nr_labels, s) ← input.nat s
  let (nr_l_trans, s) ← input.nat s
  if 0 < nr_l_trans ∧ (nr_states = 0 ∨ nr_labels ≤ (nr_l_trans - 1) / nr_states / nr_states) then
    none
  let (nr_w_trans, s) ← input.nat s
  if 0 < nr_w_trans ∧ (nr_states = 0 ∨ nr_states ≤ (nr_w_trans - 1) / nr_states) then none
  let (nr_blocks, s) ← input.nat s
  if nr_states < nr_blocks ∨ nr_states ≠ 0 ∧ nr_blocks = 0 then none
  -- `store_sizes`
  if nr_l_max1 ≤ nr_l_trans then none
  let (l_trans, s) ← read_l_transitions input nr_states nr_labels nr_l_trans s
  -- `index` of `group_l_transitions`
  if nr_labels ≤ (11 * nr_states + 7 * nr_l_trans + nr_w_trans) % 2 ^ 32 ∧
      ∃ t ∈ l_trans, make_size nr_labels ≤ t.label then
    none
  let (w_trans, s) ← read_w_transitions input nr_states (make_size nr_w_trans) nr_w_trans 0 s
  let sets := (List.Ico 1 (nr_states + 1)).foldl (fun (sets : Arr ℕ) st => sets.set st 1) (.const 0)
  let (sets, _) ← read_blocks input nr_states fuel (nr_blocks - 1) 2 sets s
  some
    { nr_states := nr_states
      nr_labels := nr_labels
      nr_init_blocks := nr_blocks
      l_trans := l_trans
      w_trans := w_trans
      sets := sets }

/-- `main` of `MDPmin.cc`: the number that is printed. -/
def part_ref (fuel : ℕ) (s : σ) : Option ℕ := (MDP_read input fuel s).bind fun m => minimize m fuel

end

/-! ## The export of `arcs-valmari` -/

/-- The transitions of the arcs. -/
def arcTransitions (g : WebGraph) : List WTransition :=
  g.arcs.map fun a => ⟨a.1 + 1, 1, a.2 + 1⟩

/-- What `MDP_read` stores of an exported graph. -/
def exported (g : WebGraph) : MDP where
  nr_states := g.num_nodes
  nr_labels := 0
  nr_init_blocks := 1
  l_trans := []
  w_trans := arcTransitions g
  sets := (List.Ico 1 (g.num_nodes + 1)).foldl (fun sets st => sets.set st 1) (.const 0)

/-- The numbers of a graph in the format of `part_ref`: no labels, no labelled transitions, one
initial block, and states from one. -/
def valmariNumbers (g : Graph) : List ℕ :=
  [g.node_n, 0, 0, g.edges.length, 1] ++
    g.edges.flatMap fun e => [e.edge_start + 1, e.edge_weight, e.edge_end + 1]

/-- What `MDP_read` stores of these numbers, with the first `k` edges. -/
def stored (g : Graph) (k : ℕ) : MDP where
  nr_states := g.node_n
  nr_labels := 0
  nr_init_blocks := 1
  l_trans := []
  w_trans := (g.edges.take k).map fun e => ⟨e.edge_start + 1, e.edge_weight, e.edge_end + 1⟩
  sets := (List.Ico 1 (g.node_n + 1)).foldl (fun sets st => sets.set st 1) (.const 0)

section

variable {σ : Type}

/-- The reader hands out the numbers one by one, `x` as the natural number `val x`, and as an
integer when it is small. -/
def HandsOut (rd : Reader σ) (val : ℕ → ℕ) : σ → List ℕ → Prop
  | _, [] => True
  | s, x :: l => ∃ s', rd.nat s = some (val x, s') ∧
      (x < 2 ^ 31 → rd.intgr s = some ((x : ℤ), s')) ∧ HandsOut rd val s' l

theorem handsOut_numbers : ∀ l : List ℕ, HandsOut numbers id l l
  | [] => trivial
  | _ :: l => ⟨l, rfl, fun _ => rfl, handsOut_numbers l⟩

variable {rd : Reader σ} {val : ℕ → ℕ} {s : σ}

/-- The first `k` rows of a file. -/
theorem read_w_transitions_rows (hval : ∀ x < 2 ^ 32, val x = x) {n max1 : ℕ} (hn : n < 2 ^ 32)
    {l : List Edge} (hl : IdsBelow n l) (hw : ∀ e ∈ l, e.edge_weight < 2 ^ 31) {k : ℕ}
    (hk : k ≤ l.length) (w_cnt : ℕ) (hmax : w_cnt + k < max1)
    (h : HandsOut rd val s (l.flatMap fun e => [e.edge_start + 1, e.edge_weight, e.edge_end + 1])) :
    ∃ s', read_w_transitions rd n max1 k w_cnt s =
      some ((l.take k).map fun e => ⟨e.edge_start + 1, e.edge_weight, e.edge_end + 1⟩, s') := by
  induction l generalizing s k w_cnt with
  | nil =>
    obtain rfl : k = 0 := Nat.le_zero.1 hk
    exact ⟨s, rfl⟩
  | cons e l ih =>
    cases k with
    | zero => exact ⟨s, rfl⟩
    | succ k =>
      obtain ⟨hs, hd⟩ := hl e (List.mem_cons_self ..)
      have hgood : ∀ x < n, ¬ bad_st n (x + 1) := fun x hx => by unfold bad_st; omega
      obtain ⟨s₁, h₁, -, s₂, -, h₂, s₃, h₃, -, hrest⟩ := h
      rw [hval _ (by omega)] at h₁ h₃
      have h₂ := h₂ (hw e (List.mem_cons_self ..))
      obtain ⟨s', hs'⟩ := ih (fun b hb => hl b (List.mem_cons_of_mem _ hb))
        (fun b hb => hw b (List.mem_cons_of_mem _ hb)) (Nat.le_of_succ_le_succ hk) (w_cnt + 1)
        (by omega) hrest
      refine ⟨s', ?_⟩
      simp only [read_w_transitions, h₁, h₂, h₃, hs', if_neg (hgood _ hs), if_neg (hgood _ hd),
        if_neg (show ¬ max1 ≤ w_cnt + 1 by omega), Option.bind_eq_bind, Option.bind_some]
      rfl

/-- Nothing can be stored in arrays without entries. -/
theorem read_w_transitions_none (rd : Reader σ) (n k w_cnt : ℕ) (s : σ) :
    read_w_transitions rd n 0 (k + 1) w_cnt s = none := by
  simp [read_w_transitions]

/-- **What `MDP_read` makes of a file**: the announced number of edges, as far as it is read. -/
theorem MDP_read_edges (hval : ∀ x < 2 ^ 32, val x = x) {g : Graph}
    (hle : val g.edges.length ≤ g.edges.length) (hn : 1 ≤ g.node_n) (hlt : g.node_n < 2 ^ 32)
    (hids : IdsBelow g.node_n g.edges) (hw : ∀ e ∈ g.edges, e.edge_weight < 2 ^ 31)
    (hfew : g.edges.length ≤ g.node_n * g.node_n) (h : HandsOut rd val s (valmariNumbers g))
    (fuel : ℕ) :
    (val g.edges.length + 1 < 2 ^ 32 →
        MDP_read rd fuel s = some (stored g (val g.edges.length))) ∧
      (val g.edges.length + 1 = 2 ^ 32 → MDP_read rd fuel s = none) := by
  have hfew : ¬ (0 < val g.edges.length ∧
      (g.node_n = 0 ∨ g.node_n ≤ (val g.edges.length - 1) / g.node_n)) := by
    rintro ⟨hpos, hz | hdiv⟩
    · omega
    · have := (Nat.le_div_iff_mul_le hn).1 hdiv
      omega
  have hblocks : ¬ (g.node_n < 1 ∨ g.node_n ≠ 0 ∧ 1 = 0) := by omega
  obtain ⟨s₁, h₁, -, s₂, h₂, -, s₃, h₃, -, s₄, h₄, -, s₅, h₅, -, hrest⟩ := h
  rw [hval _ hlt] at h₁
  rw [hval 0 (by decide)] at h₂ h₃
  rw [hval 1 (by decide)] at h₅
  simp only [MDP_read, h₁, h₂, h₃, h₄, h₅, Option.bind_eq_bind, Option.bind_some, if_neg hfew,
    if_neg hblocks]
  rw [if_neg fun h => absurd h.1 (lt_irrefl 0), if_neg (show ¬ nr_l_max1 ≤ 0 by decide)]
  simp only [read_l_transitions, Option.bind_some, List.not_mem_nil, false_and, exists_false,
    and_false, if_false]
  constructor
  · intro hmax
    have hsize : 0 + val g.edges.length < make_size (val g.edges.length) := by
      rw [make_size, nodeT_of_lt hmax]
      omega
    obtain ⟨s', hs'⟩ := read_w_transitions_rows hval hlt hids hw hle 0 hsize hrest
    simp only [hs', Option.bind_some, Nat.sub_self, read_blocks]
    rfl
  · intro hmax
    have hzero : make_size (val g.edges.length) = 0 := by rw [make_size, hmax]; rfl
    obtain ⟨k, hk⟩ : ∃ k, val g.edges.length = k + 1 := ⟨val g.edges.length - 1, by omega⟩
    rw [hzero, hk, read_w_transitions_none]
    rfl

theorem stored_weighedOnly {g : Graph} (hn : 1 ≤ g.node_n) (hids : IdsBelow g.node_n g.edges)
    (k : ℕ) : WeighedOnly (stored g k) where
  states := hn
  no_labels := rfl
  blocks := rfl
  sets st hst := first_block hst
  trans t ht := by
    obtain ⟨e, he, rfl⟩ := List.mem_map.1 ht
    have := hids e (List.mem_of_mem_take he)
    exact ⟨⟨by dsimp only; omega, by dsimp only; exact this.1⟩,
      ⟨by dsimp only; omega, by dsimp only; exact this.2⟩⟩

theorem stored_fits {g : Graph} (hlt : g.node_n < 2 ^ 31) (htot : totalWeight g.edges < 2 ^ 31) :
    Fits (stored g g.edges.length) := by
  refine ⟨hlt, sumsFit_of_total ?_⟩
  have hweights : (stored g g.edges.length).w_trans.map (fun t => t.weight.natAbs) =
      g.edges.map Edge.edge_weight := by
    simp [stored, Function.comp_def]
  rw [hweights]
  exact htot

/-- The weights of the minimizer are those of the graph. -/
theorem stored_W (g : Graph) :
    (stored g g.edges.length).W g.node_n = fun u v => (weights g.edges g.node_n u v : ℤ) := by
  funext u v
  unfold MDP.W weights edgeWeight stored
  rw [List.take_length, List.filter_map, List.map_map]
  simp [Function.comp_def]

/-- **`part_ref` on a file** prints the number of classes of the graph. -/
theorem part_ref_edges (hval : ∀ x < 2 ^ 32, val x = x) {g : Graph} (hn : 1 ≤ g.node_n)
    (hlt : g.node_n < 2 ^ 31) (hids : IdsBelow g.node_n g.edges)
    (htot : totalWeight g.edges < 2 ^ 31) (hfew : g.edges.length ≤ g.node_n * g.node_n)
    (hm : g.edges.length + 1 < 2 ^ 32) (h : HandsOut rd val s (valmariNumbers g)) {fuel : ℕ}
    (hfuel : g.node_n ≤ fuel) : part_ref rd fuel s = some (beClasses g) := by
  have hlen := hval g.edges.length (by omega)
  have hw : ∀ e ∈ g.edges, e.edge_weight < 2 ^ 31 := fun e he =>
    (List.le_sum_of_mem (List.mem_map_of_mem he)).trans_lt htot
  have hread := (MDP_read_edges hval hlen.le hn (by omega) hids hw hfew h fuel).1 (by omega)
  rw [hlen] at hread
  rw [part_ref, hread, Option.bind_some,
    minimize_exact (stored_weighedOnly hn hids _) (stored_fits hlt htot) hfuel]
  have hW := stored_W g
  have hcoarse := coarsest_map (Nat.castAddMonoidHom ℤ) Nat.cast_injective
    (weights g.edges g.node_n) ⊤
  show some (classCount (coarsest ((stored g g.edges.length).W g.node_n) ⊤)) = _
  rw [hW]
  exact congrArg (fun r => some (classCount r)) hcoarse

/-! ### Exports -/

variable {g : WebGraph}

theorem to_csv_eq_valmariNumbers (g : WebGraph) : ArcsValmari.to_csv g = valmariNumbers g.graph := by
  rw [ArcsValmari.to_csv, WebGraph.rows_eq g fun src dst => [src + 1, 1, dst + 1], valmariNumbers,
    WebGraph.graph, List.flatMap_map, List.length_map]
  rfl

theorem length_edges_graph (g : WebGraph) : g.graph.edges.length = g.num_arcs := List.length_map ..

theorem exported_eq_stored (g : WebGraph) (k : ℕ) :
    stored g.graph k = { exported g with w_trans := (arcTransitions g).take k } := by
  simp [stored, exported, arcTransitions, WebGraph.graph, Function.comp_def, List.map_take]

theorem weight_graph_lt : ∀ e ∈ g.graph.edges, e.edge_weight < 2 ^ 31 := by
  intro e he
  obtain ⟨a, -, rfl⟩ := List.mem_map.1 he
  exact show 1 < 2 ^ 31 by decide

/-- **What `MDP_read` makes of an export**: the announced number of arcs, as far as it is read. -/
theorem MDP_read_rows (hval : ∀ x < 2 ^ 32, val x = x) (hle : val g.num_arcs ≤ g.num_arcs)
    (hn : 1 ≤ g.num_nodes) (hlt : g.num_nodes < 2 ^ 32)
    (h : HandsOut rd val s (ArcsValmari.to_csv g)) (fuel : ℕ) :
    (val g.num_arcs + 1 < 2 ^ 32 → MDP_read rd fuel s =
        some { exported g with w_trans := (arcTransitions g).take (val g.num_arcs) }) ∧
      (val g.num_arcs + 1 = 2 ^ 32 → MDP_read rd fuel s = none) := by
  rw [to_csv_eq_valmariNumbers] at h
  rw [← exported_eq_stored, ← length_edges_graph] at *
  exact MDP_read_edges hval hle hn hlt g.idsBelow_graph weight_graph_lt
    ((length_edges_graph g).trans_le g.num_arcs_le) h fuel

end

/-- **`part_ref` on the export of a graph** prints the number of its classes. -/
theorem part_ref_to_csv {g : WebGraph} (hn : 1 ≤ g.num_nodes) (hlt : g.num_nodes < 2 ^ 31)
    (hm : g.num_arcs < 2 ^ 31) {fuel : ℕ} (hfuel : g.num_nodes ≤ fuel) :
    part_ref numbers fuel (ArcsValmari.to_csv g) = some (beClasses g.graph) := by
  rw [to_csv_eq_valmariNumbers]
  have htot : totalWeight g.graph.edges = g.num_arcs := by
    simp [totalWeight, WebGraph.graph, WebGraph.num_arcs, Function.comp_def]
  exact part_ref_edges (fun _ _ => rfl) hn hlt g.idsBelow_graph (htot ▸ hm)
    ((length_edges_graph g).trans_le g.num_arcs_le) (by rw [length_edges_graph]; omega)
    (handsOut_numbers _) hfuel

end Rbsc.PartRef
