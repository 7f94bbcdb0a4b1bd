import Rbsc.Stdin.ReadGraph

/-!
# Graph files

A well-formed file: decimal numbers with one separator behind each, the number of nodes, the number
of edges, and one row an edge.

* `rbsc_reads`: `rbsc` reads the file as it is written;
* `rsc_reads_prefix`: `rsc` reads it as it is written as long as the exact total is in the limit;
* `limit_enforced_iff`: `rsc` enforces its limit exactly on the files whose first weight above the
  limit is still above it modulo `2 ^ 32`.
-/

namespace Rbsc.Stdin

open Rsc

/-- One edge as it stands in a file. -/
structure Row where
  edge_start : Numeral
  edge_weight : Numeral
  edge_end : Numeral

namespace Row

variable (r : Row)

def text : List Char := r.edge_start.text ++ r.edge_weight.text ++ r.edge_end.text

/-- The edge that is written. -/
def edge : Edge := ⟨r.edge_start.value, r.edge_end.value, r.edge_weight.value⟩

/-- The numbers are such as the readers hold: ids as `node_t`, the weight as `uint64_t`. -/
def Fits : Prop :=
  r.edge_start.value < 2 ^ 32 ∧ r.edge_end.value < 2 ^ 32 ∧ r.edge_weight.value < 2 ^ 64

end Row

/-- A well-formed graph file. -/
structure GraphFile where
  node_n : Numeral
  edge_n : Numeral
  rows : List Row
  node_lt : node_n.value < 2 ^ 32
  edge_lt : edge_n.value < 2 ^ 64
  announced : edge_n.value = rows.length
  ids : ∀ r ∈ rows, r.edge_start.value < node_n.value ∧ r.edge_end.value < node_n.value
  weight_lt : ∀ r ∈ rows, r.edge_weight.value < 2 ^ 64

namespace GraphFile

variable (f : GraphFile)

def text : List Char := f.node_n.text ++ f.edge_n.text ++ f.rows.flatMap Row.text

def edges : List Edge := f.rows.map Row.edge

/-- The graph that is written. -/
def graph : Graph := ⟨f.node_n.value, f.edges⟩

variable {f}

theorem fits : ∀ r ∈ f.rows, r.Fits := fun r hr =>
  ⟨(f.ids r hr).1.trans f.node_lt, (f.ids r hr).2.trans f.node_lt, f.weight_lt r hr⟩

theorem idsBelow : IdsBelow f.graph.node_n f.graph.edges := by
  intro e he
  obtain ⟨r, hr, rfl⟩ := List.mem_map.1 he
  exact f.ids r hr

end GraphFile

/-! ## Row by row -/

section

variable {check : ℕ → ℕ → Option (ℕ × ℕ)} {fuel : ℕ}

theorem Numeral.digits_length_le (d : Numeral) : d.digits.length ≤ d.text.length := by
  rw [Numeral.text, List.length_append]
  omega

/-- One row of the loop. -/
theorem read_rows_row {r : Row} (hr : r.Fits) (hfuel : r.text.length ≤ fuel) (todo i : ℕ)
    (edges : List Edge) (tot_weight : ℕ) (rest : List Byte) :
    read_rows check (read_uint64 fuel) (todo + 1) i ⟨edges, tot_weight, bytes r.text ++ rest⟩ =
      match check tot_weight r.edge_weight.value with
      | none => some (.failure i)
      | some (edge_weight, tot_weight) =>
        read_rows check (read_uint64 fuel) todo (i + 1)
          ⟨edges ++ [⟨r.edge_start.value, r.edge_end.value, edge_weight⟩], tot_weight, rest⟩ := by
  obtain ⟨hs, he, hw⟩ := hr
  rw [Row.text, List.length_append, List.length_append] at hfuel
  have hlen₁ := r.edge_start.digits_length_le
  have hlen₂ := r.edge_weight.digits_length_le
  have hlen₃ := r.edge_end.digits_length_le
  have hread₁ := fun rest => @read_uint64_numeral r.edge_start rest fuel (by omega)
  have hread₂ := fun rest => @read_uint64_numeral r.edge_weight rest fuel (by omega)
  have hread₃ := fun rest => @read_uint64_numeral r.edge_end rest fuel (by omega)
  rw [Nat.mod_eq_of_lt (by omega)] at hread₁ hread₂ hread₃
  simp only [Row.text, bytes_append, List.append_assoc, read_rows, hread₁, hread₂,
    Option.bind_eq_bind, Option.bind_some]
  cases check tot_weight r.edge_weight.value with
  | none => rfl
  | some p => simp only [hread₃, Option.bind_some, nodeT_of_lt hs, nodeT_of_lt he]

/-- Rows whose weights pass unchanged are read as they are written; `T k` is the total after `k` of
them. -/
theorem read_rows_exact {rows : List Row} (hrows : ∀ r ∈ rows, r.Fits)
    (hfuel : (rows.flatMap Row.text).length ≤ fuel) {T : ℕ → ℕ}
    (hcheck : ∀ k (hk : k < rows.length),
      check (T k) rows[k].edge_weight.value = some (rows[k].edge_weight.value, T (k + 1)))
    (i : ℕ) (edges : List Edge) (rest : List Byte) :
    read_rows check (read_uint64 fuel) rows.length i
        ⟨edges, T 0, bytes (rows.flatMap Row.text) ++ rest⟩ =
      some (.success ⟨edges ++ rows.map Row.edge, T rows.length, rest⟩) := by
  induction rows generalizing T i edges with
  | nil => simp [read_rows, bytes]
  | cons r rows ih =>
    rw [List.flatMap_cons, List.length_append] at hfuel
    have h0 : check (T 0) r.edge_weight.value = some (r.edge_weight.value, T 1) :=
      hcheck 0 (Nat.zero_lt_succ _)
    have ih := ih (fun r hr => hrows r (List.mem_cons_of_mem _ hr)) (by omega)
      (T := fun k => T (k + 1)) (fun k hk => hcheck (k + 1) (Nat.succ_lt_succ hk)) (i + 1)
      (edges ++ [r.edge])
    rw [List.flatMap_cons, bytes_append, List.append_assoc, List.length_cons,
      read_rows_row (hrows r (List.mem_cons_self ..)) (by omega)]
    simp only [h0]
    rw [List.map_cons, List.append_cons edges r.edge (rows.map Row.edge)]
    exact ih

/-- The loop goes on behind its first `k` edges. -/
theorem read_rows_add {σ : Type} (read : σ → Option (ℕ × σ)) (k todo i : ℕ) (r : Reading σ) :
    read_rows check read (k + todo) i r =
      (read_rows check read k i r).bind fun
        | .success r => read_rows check read todo (i + k) r
        | .failure j => some (.failure j) := by
  induction k generalizing i r with
  | zero => rw [Nat.zero_add]; rfl
  | succ k ih =>
    rw [Nat.succ_add, read_rows, read_rows]
    simp only [Option.bind_eq_bind, Option.bind_assoc]
    refine Option.bind_congr fun p₁ _ => Option.bind_congr fun p₂ _ => ?_
    cases check r.tot_weight p₂.1 with
    | none => rfl
    | some c =>
      simp only [Option.bind_assoc]
      refine Option.bind_congr fun p₃ _ => ?_
      rw [ih, Nat.add_assoc, Nat.add_comm 1]

/-- It fails at one of the edges that it reads. -/
theorem le_of_failure {σ : Type} {read : σ → Option (ℕ × σ)} {todo i j : ℕ} {r : Reading σ}
    (h : read_rows check read todo i r = some (.failure j)) : i ≤ j := by
  induction todo generalizing i r with
  | zero => cases h
  | succ todo ih =>
    obtain ⟨p₁, -, h⟩ := Option.bind_eq_some_iff.1 h
    obtain ⟨p₂, -, h⟩ := Option.bind_eq_some_iff.1 h
    cases hc : check r.tot_weight p₂.1 with
    | none =>
      simp only [hc] at h
      cases h
      exact le_rfl
    | some c =>
      simp only [hc] at h
      obtain ⟨p₃, -, h⟩ := Option.bind_eq_some_iff.1 h
      exact (Nat.le_succ i).trans (ih h)

end

/-! ## Files -/

section

variable {f : GraphFile} {fuel : ℕ}

theorem read_graph_file {check : ℕ → ℕ → Option (ℕ × ℕ)} (hfuel : f.text.length ≤ fuel)
    (rest : List Byte) :
    read_graph check (read_uint64 fuel) (bytes f.text ++ rest) =
      (read_rows check (read_uint64 fuel) f.rows.length 0
        ⟨[], 0, bytes (f.rows.flatMap Row.text) ++ rest⟩).map (Rows.returned f.node_n.value) := by
  rw [GraphFile.text, List.length_append, List.length_append] at hfuel
  have hlen₁ := f.node_n.digits_length_le
  have hlen₂ := f.edge_n.digits_length_le
  have hread₁ := fun rest => @read_uint64_numeral f.node_n rest fuel (by omega)
  have hread₂ := fun rest => @read_uint64_numeral f.edge_n rest fuel (by omega)
  have hn := f.node_lt
  rw [Nat.mod_eq_of_lt (by omega)] at hread₁
  rw [Nat.mod_eq_of_lt f.edge_lt, f.announced] at hread₂
  simp only [GraphFile.text, bytes_append, List.append_assoc, read_graph, hread₁, hread₂,
    Option.bind_eq_bind, Option.bind_some, nodeT_of_lt hn]
  exact Option.map_eq_bind.symm

theorem rows_length_le : (f.rows.flatMap Row.text).length ≤ f.text.length := by
  rw [GraphFile.text, List.length_append]
  omega

/-- What `rbsc` needs to read a file as it is written: nothing else. -/
theorem rbsc_reads (hfuel : f.text.length ≤ fuel) (rest : List Byte) :
    rbsc_read_graph (read_uint64 fuel) (bytes f.text ++ rest) =
      some (.success f.graph 0 rest) := by
  rw [rbsc_read_graph, read_graph_file hfuel,
    read_rows_exact GraphFile.fits (rows_length_le.trans hfuel) (T := fun _ => 0) fun _ _ => rfl]
  rfl

/-- The exact total of the first `k` edges of the file. -/
def runningTotal (f : GraphFile) (k : ℕ) : ℕ := totalWeight (f.edges.take k)

theorem runningTotal_succ {k : ℕ} (hk : k < f.rows.length) :
    runningTotal f (k + 1) = runningTotal f k + f.rows[k].edge_weight.value := by
  have hlen : k < f.edges.length := by rwa [GraphFile.edges, List.length_map]
  rw [runningTotal, take_succ_edges hlen, edgeAt_eq hlen, totalWeight, List.map_append,
    List.sum_append, runningTotal, totalWeight]
  simp [GraphFile.edges, Row.edge]

theorem runningTotal_mono {j k : ℕ} (h : j ≤ k) : runningTotal f j ≤ runningTotal f k := by
  obtain ⟨d, rfl⟩ := Nat.exists_eq_add_of_le h
  rw [runningTotal, runningTotal, List.take_add, totalWeight, totalWeight, List.map_append,
    List.sum_append]
  exact Nat.le_add_right _ _

/-- A weight that the limit leaves room for. -/
theorem check_weight_of_le {tot_weight edge_weight : ℕ}
    (h : tot_weight + edge_weight ≤ WEIGHT_MAX) :
    check_weight tot_weight edge_weight = some (edge_weight, tot_weight + edge_weight) := by
  have hlt : WEIGHT_MAX < 2 ^ 32 := by decide
  rw [check_weight, nodeT_of_lt (show edge_weight < 2 ^ 32 by omega), if_neg (by omega),
    nodeT_of_lt (by omega)]

/-- The state of `rsc` before edge `k`, while the exact total is in the limit. -/
def readingAt (f : GraphFile) (k : ℕ) (rest : List Byte) : Reading (List Byte) :=
  ⟨f.edges.take k, runningTotal f k, bytes ((f.rows.drop k).flatMap Row.text) ++ rest⟩

/-- **`rsc` reads the edges as they are written** as long as their exact total is in the limit. -/
theorem rsc_reads_prefix (hfuel : f.text.length ≤ fuel) (rest : List Byte) {k : ℕ}
    (hk : k ≤ f.rows.length) (htot : runningTotal f k ≤ WEIGHT_MAX) :
    read_rows check_weight (read_uint64 fuel) k 0 (readingAt f 0 rest) =
      some (.success (readingAt f k rest)) := by
  have htake : (f.rows.take k).length = k := List.length_take_of_le hk
  have hsplit : f.rows.flatMap Row.text =
      (f.rows.take k).flatMap Row.text ++ (f.rows.drop k).flatMap Row.text := by
    rw [← List.flatMap_append, List.take_append_drop]
  have hlen : ((f.rows.take k).flatMap Row.text).length ≤ fuel := by
    have := (rows_length_le (f := f)).trans hfuel
    rw [hsplit, List.length_append] at this
    omega
  have hcheck : ∀ j (hj : j < (f.rows.take k).length),
      check_weight (runningTotal f j) (f.rows.take k)[j].edge_weight.value =
        some ((f.rows.take k)[j].edge_weight.value, runningTotal f (j + 1)) := by
    intro j hj
    have hjk : j < k := by rwa [htake] at hj
    have hsucc := runningTotal_succ (f := f) (show j < f.rows.length by omega)
    have hmono := runningTotal_mono (f := f) (show j + 1 ≤ k from hjk)
    rw [List.getElem_take, hsucc]
    exact check_weight_of_le (by omega)
  have hread := read_rows_exact (fun r hr => GraphFile.fits r (List.mem_of_mem_take hr)) hlen
    (T := runningTotal f) hcheck 0 [] (bytes ((f.rows.drop k).flatMap Row.text) ++ rest)
  rw [htake] at hread
  rw [readingAt, readingAt, List.drop_zero, hsplit, bytes_append, List.append_assoc,
    GraphFile.edges, ← List.map_take, ← List.map_take]
  exact hread

/-- Edge `i` is the first with which the exact total is above the limit. -/
def FirstOver (f : GraphFile) (i : ℕ) : Prop :=
  i < f.rows.length ∧ runningTotal f i ≤ WEIGHT_MAX ∧ WEIGHT_MAX < runningTotal f (i + 1)

/-- The limit, enforced on the weights as they are written: the program returns `0` exactly when
the total is in it, it holds the weights and every running total as they are then, and it fails at
the first edge that exceeds it otherwise. -/
def LimitEnforced (f : GraphFile) : Prop :=
  ∀ fuel ≥ f.text.length, ∀ rest,
    let ret := rsc_read_graph (read_uint64 fuel) (bytes f.text ++ rest)
    ((∃ g tot_weight stdin, ret = some (.success g tot_weight stdin)) ↔
        totalWeight f.edges ≤ WEIGHT_MAX) ∧
      (totalWeight f.edges ≤ WEIGHT_MAX → ret = some (.success f.graph (totalWeight f.edges) rest) ∧
        ∀ k ≤ f.rows.length, read_rows check_weight (read_uint64 fuel) k 0 (readingAt f 0 rest) =
          some (.success (readingAt f k rest))) ∧
      ∀ i, FirstOver f i → ret = some (.failure i)

/-- The check sees the first weight that exceeds the limit, modulo `2 ^ 32`. -/
def Caught (f : GraphFile) : Prop :=
  ∀ i (hi : i < f.rows.length), FirstOver f i →
    WEIGHT_MAX < runningTotal f i + nodeT f.rows[i].edge_weight.value

theorem exists_firstOver (h : WEIGHT_MAX < totalWeight f.edges) : ∃ i, FirstOver f i := by
  have hlast : WEIGHT_MAX < runningTotal f f.rows.length := by
    rwa [runningTotal, List.take_of_length_le (by rw [GraphFile.edges, List.length_map])]
  -- the first number of edges whose total is above the limit
  have hex : ∃ k, WEIGHT_MAX < runningTotal f k := ⟨_, hlast⟩
  have hfind := Nat.find_spec hex
  have hle : Nat.find hex ≤ f.rows.length := Nat.find_min' hex hlast
  have hpos : Nat.find hex ≠ 0 := by
    intro h0
    rw [h0] at hfind
    exact absurd hfind (Nat.not_lt_zero _)
  refine ⟨Nat.find hex - 1, by omega, ?_, by rwa [Nat.sub_add_cancel (by omega)]⟩
  exact not_lt.1 (Nat.find_min hex (by omega))

/-- What `rsc` does at edge `i`, when the exact total before it is in the limit. -/
theorem rsc_reads_row (hfuel : f.text.length ≤ fuel) (rest : List Byte) {i : ℕ}
    (hi : i < f.rows.length) (htot : runningTotal f i ≤ WEIGHT_MAX) :
    read_rows check_weight (read_uint64 fuel) f.rows.length 0 (readingAt f 0 rest) =
      match check_weight (runningTotal f i) f.rows[i].edge_weight.value with
      | none => some (.failure i)
      | some (edge_weight, tot_weight) =>
        read_rows check_weight (read_uint64 fuel) (f.rows.length - (i + 1)) (i + 1)
          ⟨f.edges.take i ++ [⟨f.rows[i].edge_start.value, f.rows[i].edge_end.value, edge_weight⟩],
            tot_weight, bytes ((f.rows.drop (i + 1)).flatMap Row.text) ++ rest⟩ := by
  have hlen : f.rows.length = i + (f.rows.length - (i + 1) + 1) := by omega
  have hmem : f.rows[i] ∈ f.rows := List.getElem_mem hi
  have hrow : f.rows[i].text.length ≤ fuel := by
    have hflat := List.drop_eq_getElem_cons hi
    have hsplit := congrArg (List.flatMap Row.text) (List.take_append_drop i f.rows)
    have hall := (rows_length_le (f := f)).trans hfuel
    rw [← hsplit, List.flatMap_append, hflat, List.flatMap_cons, List.length_append,
      List.length_append] at hall
    omega
  conv_lhs => rw [hlen]
  rw [read_rows_add, rsc_reads_prefix hfuel rest hi.le htot, Option.bind_some]
  dsimp only
  rw [readingAt, List.drop_eq_getElem_cons hi, List.flatMap_cons, bytes_append, List.append_assoc,
    Nat.zero_add, read_rows_row (GraphFile.fits _ hmem) hrow]

theorem rsc_read_file (hfuel : f.text.length ≤ fuel) (rest : List Byte) :
    rsc_read_graph (read_uint64 fuel) (bytes f.text ++ rest) =
      (read_rows check_weight (read_uint64 fuel) f.rows.length 0 (readingAt f 0 rest)).map
        (Rows.returned f.node_n.value) := by
  rw [rsc_read_graph, read_graph_file hfuel]
  rfl

/-- The exact total is in the limit: everything is as it is written. -/
theorem rsc_reads (hfuel : f.text.length ≤ fuel) (rest : List Byte)
    (htot : totalWeight f.edges ≤ WEIGHT_MAX) :
    rsc_read_graph (read_uint64 fuel) (bytes f.text ++ rest) =
      some (.success f.graph (totalWeight f.edges) rest) := by
  have hall : f.edges.take f.rows.length = f.edges :=
    List.take_of_length_le (by rw [GraphFile.edges, List.length_map])
  rw [rsc_read_file hfuel, rsc_reads_prefix hfuel rest le_rfl (by rwa [runningTotal, hall]),
    Option.map_some, readingAt, runningTotal, hall, List.drop_length]
  rfl

/-- The weight is caught or not. -/
theorem rsc_failure_iff (hfuel : f.text.length ≤ fuel) (rest : List Byte) {i : ℕ}
    (hi : i < f.rows.length) (hover : FirstOver f i) :
    rsc_read_graph (read_uint64 fuel) (bytes f.text ++ rest) = some (.failure i) ↔
      WEIGHT_MAX < runningTotal f i + nodeT f.rows[i].edge_weight.value := by
  rw [rsc_read_file hfuel, rsc_reads_row hfuel rest hi hover.2.1, check_weight]
  have htot := hover.2.1
  by_cases hc : WEIGHT_MAX - runningTotal f i < nodeT f.rows[i].edge_weight.value
  · simp only [if_pos hc]
    exact iff_of_true rfl (by omega)
  · simp only [if_neg hc]
    refine iff_of_false (fun h => ?_) (by omega)
    obtain ⟨rows, hrows, hret⟩ := Option.map_eq_some_iff.1 h
    cases rows with
    | success r => cases hret
    | failure j =>
      cases hret
      have := le_of_failure hrows
      omega

/-- **When `rsc` enforces its limit.** -/
theorem limit_enforced_iff (f : GraphFile) : LimitEnforced f ↔ Caught f := by
  constructor
  · intro h i hi hover
    exact (rsc_failure_iff le_rfl [] hi hover).1 ((h _ le_rfl []).2.2 i hover)
  · intro h fuel hfuel rest
    have hfail : ∀ i, FirstOver f i →
        rsc_read_graph (read_uint64 fuel) (bytes f.text ++ rest) = some (.failure i) :=
      fun i hover => (rsc_failure_iff hfuel rest hover.1 hover).2 (h i hover.1 hover)
    refine ⟨⟨?_, fun htot => ⟨_, _, _, rsc_reads hfuel rest htot⟩⟩, fun htot => ?_, hfail⟩
    · rintro ⟨g, tot_weight, stdin, hret⟩
      by_contra htot
      obtain ⟨i, hover⟩ := exists_firstOver (not_le.1 htot)
      rw [hfail i hover] at hret
      cases hret
    · refine ⟨rsc_reads hfuel rest htot, fun k hk => rsc_reads_prefix hfuel rest hk ?_⟩
      apply (runningTotal_mono hk).trans
      rwa [runningTotal, List.take_of_length_le (by rw [GraphFile.edges, List.length_map])]

end

/-- One node and one edge of weight `2 ^ 32` at it. -/
def hugeWeight : GraphFile where
  node_n := .spaced 1
  edge_n := .ended 1
  rows := [⟨.spaced 0, .spaced (2 ^ 32), .ended 0⟩]
  node_lt := by simp
  edge_lt := by simp
  announced := by simp
  ids := by simp
  weight_lt := by simp

/-- `rsc` reads the weight `2 ^ 32` as `0`. -/
theorem hugeWeight_not_enforced : ¬ LimitEnforced hugeWeight := by
  have hedges : hugeWeight.edges = [⟨0, 0, 2 ^ 32⟩] := by
    simp [GraphFile.edges, hugeWeight, Row.edge]
  have hone : hugeWeight.rows.length = 1 := rfl
  have hover : FirstOver hugeWeight 0 := by
    rw [FirstOver, runningTotal, runningTotal, hedges, hone]
    decide
  have hweight : hugeWeight.rows[0].edge_weight.value = 2 ^ 32 := Numeral.value_spaced _
  intro h
  have hlimit := (rsc_failure_iff le_rfl [] (by decide) hover).1 ((h _ le_rfl []).2.2 0 hover)
  rw [hweight, runningTotal, hedges] at hlimit
  exact absurd hlimit (by decide)

end Rbsc.Stdin
