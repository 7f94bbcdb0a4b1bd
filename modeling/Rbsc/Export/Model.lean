import Rbsc.Rsc.Model

/-!
# The exported graphs

`to_csv` of `arcs-cuda` and of `arcs-valmari` write a webgraph as rows of numbers, one row an arc.
A text is given here by its numbers in order; which characters stand between them is left open.  A
program that reads gets them one by one from a function that it is given, `read_uint64` for
`read_graph`.

* `WebGraph.arcs`: the arcs in the order of the iterator;
* `read_graph`: the reader of `rsc`; `read_graph_to_csv`: it reads back the arcs with weight `1`.
-/

namespace Rbsc

/-- A graph as the sequential iterator of webgraph gives it: the nodes in order, each with its
successors. -/
structure WebGraph where
  num_nodes : ℕ
  successors : ℕ → List ℕ
  below : ∀ src < num_nodes, ∀ dst ∈ successors src, dst < num_nodes
  /-- No arc is given twice. -/
  distinct : ∀ src < num_nodes, (successors src).Nodup

namespace WebGraph

variable (g : WebGraph)

/-- `graph.iter()`. -/
def iter : List (ℕ × List ℕ) := (List.range g.num_nodes).map fun src => (src, g.successors src)

/-- The arcs in the order of the iterator. -/
def arcs : List (ℕ × ℕ) := g.iter.flatMap fun p => p.2.map fun dst => (p.1, dst)

/-- `graph.num_arcs_hint()`, which webgraph stores with the graph. -/
def num_arcs : ℕ := g.arcs.length

/-- The arcs, as edges of weight `1`. -/
def graph : Graph where
  node_n := g.num_nodes
  edges := g.arcs.map fun a => ⟨a.1, a.2, 1⟩

end WebGraph

/-- `to_csv` of `arcs-cuda`. -/
def ArcsCuda.to_csv (g : WebGraph) : List ℕ :=
  [g.num_nodes, g.num_arcs] ++
    g.iter.flatMap fun p => p.2.flatMap fun dst => [p.1, 1, dst]

/-- `to_csv` of `arcs-valmari`: the sizes with no labels, no labelled transitions and one initial
block, and the arcs with numbers from one. -/
def ArcsValmari.to_csv (g : WebGraph) : List ℕ :=
  [g.num_nodes, 0, 0, g.num_arcs, 1] ++
    g.iter.flatMap fun p => p.2.flatMap fun dst => [p.1 + 1, 1, dst + 1]

/-- The next number of a text that is given by its numbers. -/
def next_number : List ℕ → Option (ℕ × List ℕ)
  | [] => none
  | x :: rest => some (x, rest)

@[simp] theorem next_number_cons (x : ℕ) (rest : List ℕ) :
    next_number (x :: rest) = some (x, rest) := rfl

namespace Rsc

variable {σ : Type}

/-- `WEIGHT_MAX`. -/
def WEIGHT_MAX : ℕ := 2 ^ 32 - 1

/-- The loop of `read_graph` over `edge_n` rows. -/
def read_edges (read_uint64 : σ → Option (ℕ × σ)) : ℕ → ℕ → σ → Option (List Edge)
  | 0, _, _ => some []
  | edge_n + 1, tot_weight, s => do
    let (edge_start, s) ← read_uint64 s
    let (edge_weight, s) ← read_uint64 s
    -- `CHECK_WEIGHT`
    if WEIGHT_MAX - tot_weight < nodeT edge_weight then none
    let tot_weight := nodeT (tot_weight + nodeT edge_weight)
    let (edge_end, s) ← read_uint64 s
    let edges ← read_edges read_uint64 edge_n tot_weight s
    some (⟨nodeT edge_start, nodeT edge_end, nodeT edge_weight⟩ :: edges)

/-- `read_graph`, `none` when the total weight is too large or the text ends early. -/
def read_graph (read_uint64 : σ → Option (ℕ × σ)) (s : σ) : Option Graph := do
  let (node_n, s) ← read_uint64 s
  let (edge_n, s) ← read_uint64 s
  let edges ← read_edges read_uint64 edge_n 0 s
  some ⟨nodeT node_n, edges⟩

/-- `main`: the number of classes that is printed. -/
def main (h : Word → Word) (srt : StdSort) (read_uint64 : σ → Option (ℕ × σ)) (fuel : ℕ) (s : σ) :
    Option ℕ :=
  (read_graph read_uint64 s).bind fun g => (rsc h srt g fuel).map State.new_node_n

end Rsc

/-! ## What the reader gets -/

/-- The rows of an export, one an arc. -/
theorem WebGraph.rows_eq (g : WebGraph) (row : ℕ → ℕ → List ℕ) :
    (g.iter.flatMap fun p => p.2.flatMap fun dst => row p.1 dst) =
      g.arcs.flatMap fun a => row a.1 a.2 := by
  simp [WebGraph.arcs, List.flatMap_assoc, List.flatMap_map]

theorem WebGraph.mem_arcs {g : WebGraph} {a : ℕ × ℕ} :
    a ∈ g.arcs ↔ a.1 < g.num_nodes ∧ a.2 ∈ g.successors a.1 := by
  obtain ⟨src, dst⟩ := a
  simp only [WebGraph.arcs, WebGraph.iter, List.mem_flatMap, List.mem_map, List.mem_range]
  constructor
  · rintro ⟨p, ⟨s, hs, rfl⟩, d, hd, heq⟩
    cases heq
    exact ⟨hs, hd⟩
  · rintro ⟨hs, hd⟩
    exact ⟨_, ⟨src, hs, rfl⟩, dst, hd, rfl⟩

theorem WebGraph.arcs_below {g : WebGraph} {a : ℕ × ℕ} (h : a ∈ g.arcs) :
    a.1 < g.num_nodes ∧ a.2 < g.num_nodes := by
  obtain ⟨hs, hd⟩ := WebGraph.mem_arcs.1 h
  exact ⟨hs, g.below _ hs _ hd⟩

theorem WebGraph.nodup_arcs (g : WebGraph) : g.arcs.Nodup := by
  unfold WebGraph.arcs WebGraph.iter
  rw [List.flatMap_map, List.nodup_flatMap]
  refine ⟨fun src hsrc => ?_, ?_⟩
  · exact (g.distinct src (List.mem_range.1 hsrc)).map fun _ _ h => (Prod.mk.inj h).2
  · refine List.nodup_range.pairwise_of_forall_ne fun s _ s' _ hne a ha ha' => ?_
    obtain ⟨d, -, rfl⟩ := List.mem_map.1 ha
    obtain ⟨d', -, heq⟩ := List.mem_map.1 ha'
    exact hne (Prod.mk.inj heq).1.symm

/-- There are at most as many arcs as pairs of nodes. -/
theorem WebGraph.num_arcs_le (g : WebGraph) : g.num_arcs ≤ g.num_nodes * g.num_nodes := by
  have hsub : g.arcs.toFinset ⊆ Finset.range g.num_nodes ×ˢ Finset.range g.num_nodes := by
    intro a ha
    have := WebGraph.arcs_below (List.mem_toFinset.1 ha)
    simpa using this
  have hcard := Finset.card_le_card hsub
  rwa [List.toFinset_card_of_nodup (WebGraph.nodup_arcs g), Finset.card_product,
    Finset.card_range] at hcard

/-- The arcs of one source stand together. -/
theorem WebGraph.grouped_graph (g : WebGraph) : Grouped g.graph.edges := by
  have hsorted : g.arcs.Pairwise fun a b => a.1 ≤ b.1 := by
    unfold WebGraph.arcs WebGraph.iter
    rw [List.flatMap_map, List.pairwise_flatMap]
    refine ⟨fun src _ => ?_, ?_⟩
    · exact List.pairwise_map.2 (List.pairwise_of_forall fun _ _ => le_rfl)
    · refine List.pairwise_lt_range.imp fun hlt a ha b hb => ?_
      obtain ⟨d, -, rfl⟩ := List.mem_map.1 ha
      obtain ⟨d', -, rfl⟩ := List.mem_map.1 hb
      exact hlt.le
  have hmono : ∀ i j, i < j → j < g.graph.edges.length →
      startAt g.graph.edges i ≤ startAt g.graph.edges j := by
    intro i j hij hj
    rw [startAt_eq (hij.trans hj), startAt_eq hj]
    have hlen : g.graph.edges.length = g.arcs.length := List.length_map ..
    simp only [WebGraph.graph, List.getElem_map]
    exact List.pairwise_iff_getElem.1 hsorted i j (by omega) (by omega) hij
  intro k hk j hj i hi heq
  have h₁ := hmono i j hi (by omega)
  have h₂ := hmono j k hj hk
  omega

/-- Every arc weighs `1`. -/
theorem WebGraph.totalWeight_graph (g : WebGraph) : totalWeight g.graph.edges = g.num_arcs := by
  have : (g.graph.edges.map Edge.edge_weight) = List.replicate g.num_arcs 1 := by
    simp [WebGraph.graph, WebGraph.num_arcs, Function.comp_def]
  rw [totalWeight, this, List.sum_replicate, smul_eq_mul, mul_one]

theorem WebGraph.idsBelow_graph (g : WebGraph) : IdsBelow g.num_nodes g.graph.edges := by
  intro e he
  obtain ⟨a, ha, rfl⟩ := List.mem_map.1 he
  exact WebGraph.arcs_below ha

theorem WebGraph.accepted_graph {g : WebGraph} (h1 : 1 ≤ g.num_nodes) (hn : g.num_nodes ≤ 2 ^ 31)
    (hm : g.num_arcs ≤ 2 ^ 32 - 1) : Rsc.Accepted g.graph where
  node_pos := h1
  node_le := hn
  ids := g.idsBelow_graph
  total := by rwa [g.totalWeight_graph]

theorem read_edges_rows (l : List (ℕ × ℕ)) (hl : ∀ a ∈ l, a.1 < 2 ^ 32 ∧ a.2 < 2 ^ 32) (tot : ℕ)
    (htot : tot + l.length ≤ 2 ^ 32 - 1) :
    Rsc.read_edges next_number l.length tot (l.flatMap fun a => [a.1, 1, a.2]) =
      some (l.map fun a => ⟨a.1, a.2, 1⟩) := by
  induction l generalizing tot with
  | nil => rfl
  | cons a l ih =>
    obtain ⟨hs, hd⟩ := hl a (List.mem_cons_self ..)
    rw [List.length_cons] at htot ⊢
    have hone : nodeT 1 = 1 := rfl
    have hcheck : ¬ Rsc.WEIGHT_MAX - tot = 0 := by
      unfold Rsc.WEIGHT_MAX
      omega
    have hnext : nodeT (tot + 1) = tot + 1 := nodeT_of_lt (by omega)
    have ih := ih (fun b hb => hl b (List.mem_cons_of_mem _ hb)) (tot + 1) (by omega)
    simp [Rsc.read_edges, hcheck, hnext, ih, nodeT_of_lt hs, nodeT_of_lt hd, hone]

/-- **`read_graph` reads back what `arcs-cuda` writes.** -/
theorem read_graph_to_csv {g : WebGraph} (hn : g.num_nodes < 2 ^ 32)
    (hm : g.num_arcs ≤ 2 ^ 32 - 1) :
    Rsc.read_graph next_number (ArcsCuda.to_csv g) = some g.graph := by
  have hrows := read_edges_rows g.arcs (fun a ha => by
    obtain ⟨h₁, h₂⟩ := WebGraph.arcs_below ha
    omega) 0 (by rw [Nat.zero_add]; exact hm)
  rw [ArcsCuda.to_csv, WebGraph.rows_eq g fun src dst => [src, 1, dst]]
  simp only [Rsc.read_graph, List.cons_append, List.nil_append, next_number_cons,
    Option.bind_eq_bind, Option.bind_some, WebGraph.num_arcs, hrows, nodeT_of_lt hn]
  rfl

end Rbsc
