import Rbsc.Compare.PartRef
import Rbsc.PartRef.Reader

/-!
# `valmari-adapter`

The script that turns a graph file, as `rsc` and `rbsc` read it, into the input of `part_ref`.  On
plain files it prints the same graph with states from one (`adapter_plain`), so that `rsc` on the
file and `part_ref` behind the script print the same number (`rsc_part_ref_file`).
-/

namespace Rbsc.Compare

open Stdin PartRef

/-! ### The script -/

/-- The lines of a file, each with its newline. -/
def lines : List Char → List (List Char)
  | [] => []
  | c :: file =>
    if c = '\n' then [c] :: lines file
    else
      match lines file with
      | [] => [[c]]
      | line :: rest => (c :: line) :: rest

/-- The digits of an `int`. -/
def int_digits (s : List Char) : Option ℕ :=
  if s ≠ [] ∧ s.all Char.isDigit then some (Nat.ofDigitChars 10 s 0) else none

/-- `int`, with a sign or none and white space around it. -/
def int (s : List Char) : Option ℤ :=
  match ((s.dropWhile Char.isWhitespace).reverse.dropWhile Char.isWhitespace).reverse with
  | '-' :: s => (int_digits s).map fun n => -(n : ℤ)
  | '+' :: s => (int_digits s).map fun n => (n : ℤ)
  | s => (int_digits s).map fun n => (n : ℤ)

/-- The body of the loop over the edges: the line that is printed. -/
def adapter_edge (edge : List Char) : Option (List Char) := do
  let numbers ← (edge.splitOn ' ').mapM int
  match numbers with
  | [start, weight, stop] => some (s!"{start + 1} {weight} {stop + 1}\n").toList
  | _ => none

/-- The script, with what it prints; an exception is `none`. -/
def valmari_adapter (file : List Char) : Option (List Char) :=
  match lines file with
  | first :: second :: rest => do
    let nodes ← int first.dropLast
    let edges ← int second.dropLast
    let out ← rest.mapM adapter_edge
    some ((s!"{nodes} 0 0 {edges} 1\n").toList ++ out.flatten)
  | _ => none

/-! ### Plain files -/

/-- The counts and the edges stand on lines of their own, with one space between two numbers. -/
structure Plain (f : GraphFile) : Prop where
  node_n : f.node_n.sep = '\n'
  edge_n : f.edge_n.sep = '\n'
  rows : ∀ r ∈ f.rows, r.edge_start.sep = ' ' ∧ r.edge_weight.sep = ' ' ∧ r.edge_end.sep = '\n'

/-- The numerals that are printed. -/
def valmariNumerals (g : Graph) : List Numeral :=
  [.spaced g.node_n, .spaced 0, .spaced 0, .spaced g.edges.length, .ended 1] ++
    g.edges.flatMap fun e =>
      [.spaced (e.edge_start + 1), .spaced e.edge_weight, .ended (e.edge_end + 1)]

theorem lines_line {l : List Char} (hl : '\n' ∉ l) (rest : List Char) :
    lines (l ++ '\n' :: rest) = (l ++ ['\n']) :: lines rest := by
  induction l with
  | nil => simp [lines]
  | cons c l ih =>
    obtain ⟨hc, hl⟩ := not_or.1 (List.mem_cons.not.1 hl)
    rw [List.cons_append, lines, if_neg (Ne.symm hc), ih hl]
    rfl

theorem digit_ne {c : Char} (hc : c.isDigit = true) :
    c.isWhitespace = false ∧ c ≠ '\n' ∧ c ≠ ' ' ∧ c ≠ '-' ∧ c ≠ '+' := by
  have hne : ∀ d : Char, d.isDigit = false → c ≠ d := by
    rintro d hd rfl
    rw [hc] at hd
    cases hd
  refine ⟨?_, hne _ (by decide), hne _ (by decide), hne _ (by decide), hne _ (by decide)⟩
  have h₁ := hne ' ' (by decide)
  have h₂ := hne '\t' (by decide)
  have h₃ := hne '\r' (by decide)
  have h₄ := hne '\n' (by decide)
  simp [Char.isWhitespace, h₁, h₂, h₃, h₄]

theorem dropWhile_of_head {p : Char → Bool} {l : List Char} (hne : l ≠ [])
    (hl : ∀ c ∈ l, p c = false) (rest : List Char) :
    (l ++ rest).dropWhile p = l ++ rest := by
  obtain ⟨c, l, rfl⟩ := List.exists_cons_of_ne_nil hne
  rw [List.cons_append, List.dropWhile_cons_of_neg (by simp [hl c List.mem_cons_self])]

/-- `int` reads a numeral, with or without white space behind it. -/
theorem int_numeral (d : Numeral) {tail : List Char} (ht : ∀ c ∈ tail, c.isWhitespace = true) :
    int (d.digits ++ tail) = some (d.value : ℤ) := by
  have hspace : ∀ c ∈ d.digits, c.isWhitespace = false := fun c hc => (digit_ne (d.isDigit c hc)).1
  have htail : (tail.reverse ++ d.digits.reverse).dropWhile Char.isWhitespace =
      d.digits.reverse := by
    rw [List.dropWhile_append_of_pos fun c hc => ht c (List.mem_reverse.1 hc)]
    have h := dropWhile_of_head (List.reverse_ne_nil_iff.2 d.nonempty)
      (fun c hc => hspace c (List.mem_reverse.1 hc)) []
    rwa [List.append_nil] at h
  have hdigits : int_digits d.digits = some d.value :=
    if_pos ⟨d.nonempty, List.all_eq_true.2 d.isDigit⟩
  rw [int, dropWhile_of_head d.nonempty hspace tail, List.reverse_append, htail, List.reverse_reverse]
  obtain ⟨c, l, hl⟩ := List.exists_cons_of_ne_nil d.nonempty
  have hc : c.isDigit = true := d.isDigit c (hl ▸ List.mem_cons_self)
  obtain ⟨-, -, -, hminus, hplus⟩ := digit_ne hc
  rw [hl] at hdigits ⊢
  split
  · rename_i heq
    exact absurd (List.cons.inj heq).1 hminus
  · rename_i heq
    exact absurd (List.cons.inj heq).1 hplus
  · rw [hdigits]
    rfl

theorem int_numeral_digits (d : Numeral) : int d.digits = some (d.value : ℤ) := by
  have h := int_numeral d (List.forall_mem_nil _)
  rwa [List.append_nil] at h

theorem line_text (n m : ℕ) (w : ℕ) :
    (s!"{(n : ℤ) + 1} {(w : ℤ)} {(m : ℤ) + 1}\n").toList =
      [Numeral.spaced (n + 1), .spaced w, .ended (m + 1)].flatMap Numeral.text := by
  have hprint : ∀ k : ℕ, toString (k : ℤ) = toString k := fun _ => rfl
  have hn : (n : ℤ) + 1 = ((n + 1 : ℕ) : ℤ) := rfl
  have hm : (m : ℤ) + 1 = ((m + 1 : ℕ) : ℤ) := rfl
  rw [hn, hm, hprint, hprint, hprint]
  simp [Numeral.text, Numeral.spaced, Numeral.ended, Numeral.print, toString]

theorem first_text (n m : ℕ) : (s!"{(n : ℤ)} 0 0 {(m : ℤ)} 1\n").toList =
    [Numeral.spaced n, .spaced 0, .spaced 0, .spaced m, .ended 1].flatMap Numeral.text := by
  have hprint : ∀ k : ℕ, toString (k : ℤ) = toString k := fun _ => rfl
  have hzero : Nat.toDigits 10 0 = ['0'] := by decide
  have hone : Nat.toDigits 10 1 = ['1'] := by decide
  rw [hprint, hprint]
  simp [Numeral.text, Numeral.spaced, Numeral.ended, Numeral.print, toString, hzero, hone]

variable {f : GraphFile}

/-- One row. -/
theorem adapter_row (hf : Plain f) {r : Row} (hr : r ∈ f.rows) :
    adapter_edge r.text = some ([Numeral.spaced (r.edge.edge_start + 1),
      .spaced r.edge.edge_weight, .ended (r.edge.edge_end + 1)].flatMap Numeral.text) := by
  obtain ⟨hs, hw, he⟩ := hf.rows r hr
  have hblank : ∀ d : Numeral, ' ' ∉ d.digits := fun d hd =>
    (digit_ne (d.isDigit _ hd)).2.2.1 rfl
  have htext : r.text = [' '].intercalate
      [r.edge_start.digits, r.edge_weight.digits, r.edge_end.digits ++ ['\n']] := by
    simp [Row.text, Numeral.text, hs, hw, he, List.intercalate]
  have hsplit : r.text.splitOn ' ' =
      [r.edge_start.digits, r.edge_weight.digits, r.edge_end.digits ++ ['\n']] := by
    rw [htext]
    refine List.splitOn_intercalate ' ' (fun l hl => ?_) (by simp)
    simp only [List.mem_cons, List.not_mem_nil, or_false] at hl
    obtain rfl | rfl | rfl := hl
    · exact hblank _
    · exact hblank _
    · simp [hblank]
  have h₁ := int_numeral_digits r.edge_start
  have h₂ := int_numeral_digits r.edge_weight
  have hnewline : ∀ c ∈ ['\n'], c.isWhitespace = true := fun c hc => by
    rw [List.mem_singleton.1 hc]
    rfl
  have h₃ := int_numeral r.edge_end hnewline
  rw [adapter_edge, hsplit, ← line_text]
  simp only [List.mapM_cons, List.mapM_nil, h₁, h₂, h₃, Option.bind_eq_bind, Option.bind_some,
    Option.pure_def]
  rfl

/-- The lines of the edges. -/
theorem lines_rows {rows : List Row} (h : ∀ r ∈ rows, r.edge_start.sep = ' ' ∧
    r.edge_weight.sep = ' ' ∧ r.edge_end.sep = '\n') :
    lines (rows.flatMap Row.text) = rows.map Row.text := by
  have hline : ∀ d : Numeral, '\n' ∉ d.digits := fun d hd => (digit_ne (d.isDigit _ hd)).2.1 rfl
  induction rows with
  | nil => rfl
  | cons r rows ih =>
    obtain ⟨⟨hs, hw, he⟩, hrows⟩ := List.forall_mem_cons.1 h
    have htext : r.text = (r.edge_start.text ++ r.edge_weight.text ++ r.edge_end.digits) ++
        ['\n'] := by
      rw [Row.text, Numeral.text.eq_1 r.edge_end, he, List.append_assoc, List.append_assoc,
        List.append_assoc]
    have hno : '\n' ∉ r.edge_start.text ++ r.edge_weight.text ++ r.edge_end.digits := by
      simp [Numeral.text, hs, hw, hline]
    rw [List.flatMap_cons, List.map_cons, ← ih hrows, htext, List.append_assoc,
      List.singleton_append, lines_line hno]

/-- A loop over a list that does not fail. -/
theorem mapM_some {α β : Type} {l : List α} {step : α → Option β} {step' : α → β}
    (h : ∀ a ∈ l, step a = some (step' a)) : l.mapM step = some (l.map step') := by
  induction l with
  | nil => rfl
  | cons a l ih =>
    have hl := ih fun b hb => h b (List.mem_cons_of_mem _ hb)
    simp [List.mapM_cons, h a (List.mem_cons_self ..), hl]

/-- **What the script prints** for a plain file. -/
theorem adapter_plain (hf : Plain f) :
    valmari_adapter f.text = some ((valmariNumerals f.graph).flatMap Numeral.text) := by
  have hline : ∀ d : Numeral, '\n' ∉ d.digits := fun d hd => (digit_ne (d.isDigit _ hd)).2.1 rfl
  have hlines : lines f.text = (f.node_n.digits ++ ['\n']) :: (f.edge_n.digits ++ ['\n']) ::
      f.rows.map Row.text := by
    rw [GraphFile.text, Numeral.text, Numeral.text, hf.node_n, hf.edge_n, List.append_assoc,
      List.append_assoc, List.singleton_append, lines_line (hline _), List.append_assoc,
      List.singleton_append, lines_line (hline _), lines_rows hf.rows]
  have hrows : (f.rows.map Row.text).mapM adapter_edge = some (f.rows.map fun r =>
      [Numeral.spaced (r.edge.edge_start + 1), .spaced r.edge.edge_weight,
        .ended (r.edge.edge_end + 1)].flatMap Numeral.text) := by
    rw [List.mapM_map]
    exact mapM_some fun r hr => adapter_row hf hr
  rw [valmari_adapter, hlines]
  simp only [List.dropLast_concat, int_numeral_digits, hrows, Option.bind_eq_bind,
    Option.bind_some, first_text]
  rw [valmariNumerals, List.flatMap_append, f.announced]
  simp only [GraphFile.graph, GraphFile.edges, List.length_map, List.flatMap_map,
    List.flatMap_assoc, ← List.flatMap_def]

/-! ### Both programs on one file -/

theorem value_valmariNumerals (g : Graph) :
    (valmariNumerals g).map Numeral.value = valmariNumbers g := by
  rw [valmariNumerals, valmariNumbers]
  simp [List.map_flatMap]

/-- `rsc` on a file. -/
theorem rsc_main_file {h : Word → Word} {srt : Rsc.StdSort} (hpos : 1 ≤ f.graph.node_n)
    (hn : f.graph.node_n ≤ 2 ^ 31) (htot : totalWeight f.edges ≤ 2 ^ 32 - 1)
    (hgr : Grouped f.edges) (hcf : Rsc.CollisionFree h srt f.graph) {fuel : ℕ}
    (hfuel : f.text.length ≤ fuel) (rest : List Byte) :
    Rsc.main h srt (read_uint64 fuel) (f.graph.node_n + 1) (bytes f.text ++ rest) =
      some (beClasses f.graph) := by
  have hacc : Rsc.Accepted f.graph := ⟨hpos, hn, GraphFile.idsBelow, htot⟩
  have hgraph : Rsc.read_graph (read_uint64 fuel) (bytes f.text ++ rest) = some f.graph := by
    rw [← rsc_graph, rsc_reads hfuel rest htot]
    rfl
  obtain ⟨s, hs⟩ := Rsc.rsc_returns hacc hgr hcf
  rw [Rsc.main, hgraph, Option.bind_some, ← Rsc.count_eq_beClasses hacc hgr hcf hs]
  change (Rsc.rsc h srt f.graph (f.graph.node_n + 1)).map _ = _
  rw [hs]
  rfl

/-- **`rsc` and `part_ref` agree on every plain file** with not more edges than there are pairs of
nodes, and with weights that an `int` can sum up: `rsc`, when the edges are grouped and no sums
collide, reads the file itself, and `part_ref` what the script makes of it. -/
theorem rsc_part_ref_file (h : Word → Word) (srt : Rsc.StdSort) (hf : Plain f)
    (hpos : 1 ≤ f.graph.node_n) (hn : f.graph.node_n < 2 ^ 31)
    (hfew : f.edges.length ≤ f.graph.node_n * f.graph.node_n) (hm : f.edges.length + 1 < 2 ^ 32)
    (htot : totalWeight f.edges < 2 ^ 31) :
    (Grouped f.edges → Rsc.CollisionFree h srt f.graph → ∀ fuel, f.text.length ≤ fuel →
        Rsc.main h srt (read_uint64 fuel) (f.graph.node_n + 1) (bytes f.text) =
          some (beClasses f.graph)) ∧
      ∃ text, valmari_adapter f.text = some text ∧
        ∀ fuel, f.graph.node_n ≤ fuel →
          part_ref byteReader fuel (bytes text) = some (beClasses f.graph) := by
  refine ⟨fun hgr hcf fuel hfuel => ?_, _, adapter_plain hf, fun fuel hfuel => ?_⟩
  · have hmain := rsc_main_file hpos hn.le (by omega) hgr hcf hfuel []
    rwa [List.append_nil] at hmain
  · have hout := @handsOut_numerals (valmariNumerals f.graph) [] (by simp) []
    rw [List.nil_append, List.append_nil, value_valmariNumerals] at hout
    exact part_ref_edges (fun x hx => nodeT_of_lt hx) hpos hn GraphFile.idsBelow htot hfew hm hout
      hfuel

/-- An edge of weight three between two nodes. -/
def weightedFile : GraphFile where
  node_n := .ended 2
  edge_n := .ended 1
  rows := [⟨.spaced 0, .spaced 3, .ended 1⟩]
  node_lt := by decide
  edge_lt := by decide
  announced := by decide
  ids := by decide
  weight_lt := by decide

theorem rsc_part_ref_weightedFile :
    (∀ fuel, 10 ≤ fuel → Rsc.main randomize Rsc.StdSort.insertion (read_uint64 fuel) 3
        (bytes "2\n1\n0 3 1\n".toList) = some (beClasses weightedFile.graph)) ∧
      ∃ text, valmari_adapter "2\n1\n0 3 1\n".toList = some text ∧
        ∀ fuel, 2 ≤ fuel →
          part_ref byteReader fuel (bytes text) = some (beClasses weightedFile.graph) := by
  have hplain : Plain weightedFile := ⟨rfl, rfl, by decide⟩
  have hapart : ∀ u v : Fin 2, Rsc.sums randomize weightedFile.graph (Rsc.init weightedFile.graph) u =
      Rsc.sums randomize weightedFile.graph (Rsc.init weightedFile.graph) v → u = v := by
    decide +kernel
  have htext : weightedFile.text = "2\n1\n0 3 1\n".toList := by decide
  have h := rsc_part_ref_file randomize Rsc.StdSort.insertion hplain (by decide) (by decide)
    (by decide) (by decide) (by decide)
  rw [htext] at h
  exact ⟨h.1 (by decide) (Rsc.collisionFree_of_apart (by decide +kernel) hapart), h.2⟩

end Rbsc.Compare
