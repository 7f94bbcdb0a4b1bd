import Rbsc.PartRef.Read
import Rbsc.Export.Text

/-!
# `part_ref`: the characters

The class `reader` of `reader.cc` on the bytes of the standard input.  A state is the list of the
bytes from `buffer` on; when none is left, `buffer` is `'\0'`.  Numbers are read modulo `2 ^ 32`,
without a check.

* `byteReader`: `nat` and `intgr`;
* `handsOut_numerals`: it hands out the numerals of a text;
* `MDP_read_text`: what `MDP_read` makes of the text that `arcs-valmari` writes.
-/

namespace Rbsc.PartRef

open Stdin

/-- `buffer == ' ' || buffer == '\n'`. -/
def isSpace (buffer : Byte) : Bool := buffer = 0x20#8 || buffer = 0x0a#8

/-- `buffer >= '0' && buffer <= '9'`; a `char` above `127` is negative, and no digit either. -/
def isDigit (buffer : Byte) : Bool := 0x30#8 ≤ buffer && buffer ≤ 0x39#8

/-- `skip_spaces`. -/
def skip_spaces : List Byte → List Byte
  | [] => []
  | buffer :: is => if isSpace buffer then skip_spaces is else buffer :: is

/-- `buffer - '0'`. -/
def digitValue (buffer : Byte) : BitVec 32 := buffer.setWidth 32 - 48

/-- The loop over the digits of `nat` and of `intgr`. -/
def read_digits (result : BitVec 32) : List Byte → BitVec 32 × List Byte
  | [] => (result, [])
  | buffer :: is =>
    if isDigit buffer then read_digits (result * 10 + digitValue buffer) is
    else (result, buffer :: is)

/-- `nat`. -/
def nat (s : List Byte) : Option (ℕ × List Byte) :=
  match skip_spaces s with
  | [] => none
  | buffer :: is =>
    if isDigit buffer then
      let (result, is) := read_digits (digitValue buffer) is
      some (result.toNat, is)
    else none

/-- The loop over the signs. -/
def read_signs (is_neg : Bool) : List Byte → Bool × List Byte
  | [] => (is_neg, [])
  | buffer :: is =>
    if buffer = 0x2b#8 ∨ buffer = 0x2d#8 then
      read_signs (if buffer = 0x2d#8 then !is_neg else is_neg) is
    else (is_neg, buffer :: is)

/-- `intgr`, with an `int` that wraps. -/
def intgr (s : List Byte) : Option (ℤ × List Byte) :=
  match read_signs false (skip_spaces s) with
  | (_, []) => none
  | (is_neg, buffer :: is) =>
    if isDigit buffer then
      let (result, is) := read_digits (digitValue buffer) is
      some ((if is_neg then -result else result).toInt, is)
    else none

/-- The reader of the standard input. -/
def byteReader : Reader (List Byte) where
  nat := nat
  intgr := intgr

/-! ## Numerals -/

/-- What the bytes of a digit are to the reader. -/
theorem digit_cases {c : Char} (hc : c.isDigit = true) :
    let b := BitVec.ofNat 8 c.toNat
    isDigit b = true ∧ digitValue b = BitVec.ofNat 32 (c.toNat - 48) ∧ isSpace b = false ∧
      b ≠ 0x2b#8 ∧ b ≠ 0x2d#8 := by
  obtain ⟨h₁, h₂⟩ := Char.isDigit_iff_toNat.1 hc
  have h₁ : 48 ≤ c.toNat := h₁
  have h₂ : c.toNat ≤ 57 := h₂
  generalize c.toNat = k at h₁ h₂
  interval_cases k <;> decide

theorem read_digits_numeral {l : List Char} (hl : ∀ c ∈ l, c.isDigit = true) {b : Byte}
    (hb : isDigit b = false) (init : ℕ) (rest : List Byte) :
    read_digits (BitVec.ofNat 32 init) (bytes l ++ b :: rest) =
      (BitVec.ofNat 32 (Nat.ofDigitChars 10 l init), b :: rest) := by
  induction l generalizing init with
  | nil =>
    rw [Nat.ofDigitChars_nil]
    simp [read_digits, bytes, hb]
  | cons c l ih =>
    obtain ⟨hdig, hval, -⟩ := digit_cases (hl c (List.mem_cons_self ..))
    have hnext : BitVec.ofNat 32 init * 10 + BitVec.ofNat 32 (c.toNat - 48) =
        BitVec.ofNat 32 (10 * init + (c.toNat - '0'.toNat)) := by
      rw [Nat.mul_comm, BitVec.ofNat_add, BitVec.ofNat_mul]
      rfl
    rw [bytes_cons, List.cons_append, read_digits, if_pos hdig, hval, hnext, Nat.ofDigitChars_cons]
    exact ih (fun c hc => hl c (List.mem_cons_of_mem _ hc)) _

theorem skip_spaces_append {pre : List Byte} (hpre : ∀ b ∈ pre, isSpace b = true)
    (s : List Byte) : skip_spaces (pre ++ s) = skip_spaces s := by
  induction pre with
  | nil => rfl
  | cons b pre ih =>
    rw [List.cons_append, skip_spaces, if_pos (hpre b (List.mem_cons_self ..))]
    exact ih fun b hb => hpre b (List.mem_cons_of_mem _ hb)

theorem toInt_ofNat_of_lt {x : ℕ} (h : x < 2 ^ 31) : (BitVec.ofNat 32 x).toInt = (x : ℤ) := by
  have hnat : (BitVec.ofNat 32 x).toNat = x := by
    rw [BitVec.toNat_ofNat]
    omega
  rw [BitVec.toInt_eq_toNat_of_lt (by omega), hnat]

/-- **A numeral** behind spaces is read modulo `2 ^ 32`; its separator stays. -/
theorem read_numeral {pre : List Byte} (hpre : ∀ b ∈ pre, isSpace b = true) (d : Numeral)
    (rest : List Byte) :
    let s := BitVec.ofNat 8 d.sep.toNat :: rest
    nat (pre ++ (bytes d.text ++ rest)) = some (nodeT d.value, s) ∧
      (d.value < 2 ^ 31 → intgr (pre ++ (bytes d.text ++ rest)) = some ((d.value : ℤ), s)) := by
  obtain ⟨digits, sep, hdigits, hne, hsep⟩ := d
  obtain ⟨c, digits, rfl⟩ := List.exists_cons_of_ne_nil hne
  obtain ⟨hdig, hval, hspace, hplus, hminus⟩ := digit_cases (hdigits c (List.mem_cons_self ..))
  have hb : isDigit (BitVec.ofNat 8 sep.toNat) = false := by
    rcases hsep with rfl | rfl <;> decide
  have hread := read_digits_numeral (fun c hc => hdigits c (List.mem_cons_of_mem _ hc)) hb
    (c.toNat - 48) rest
  have hvalue : Numeral.value ⟨c :: digits, sep, hdigits, hne, hsep⟩ =
      Nat.ofDigitChars 10 digits (c.toNat - 48) := by
    rw [Numeral.value, Nat.ofDigitChars_cons, Nat.mul_zero, Nat.zero_add]
    rfl
  have hskip : skip_spaces (pre ++ (bytes (Numeral.text ⟨c :: digits, sep, hdigits, hne, hsep⟩) ++
      rest)) = BitVec.ofNat 8 c.toNat :: (bytes digits ++ BitVec.ofNat 8 sep.toNat :: rest) := by
    rw [skip_spaces_append hpre, Numeral.bytes_text, bytes_cons, List.cons_append, skip_spaces,
      if_neg (by simp [hspace])]
  constructor
  · rw [nat, hskip]
    dsimp only
    rw [if_pos hdig, hval, hread, hvalue]
    rfl
  · intro hlt
    rw [intgr, hskip, read_signs, if_neg (by simp [hplus, hminus])]
    dsimp only
    rw [if_pos hdig, hval, hread, ← hvalue, if_neg (by simp)]
    dsimp only
    rw [toInt_ofNat_of_lt hlt]

/-- **The reader hands out the numerals** of a text, modulo `2 ^ 32`. -/
theorem handsOut_numerals (ds : List Numeral) {pre : List Byte}
    (hpre : ∀ b ∈ pre, isSpace b = true) (rest : List Byte) :
    HandsOut byteReader nodeT (pre ++ (bytes (ds.flatMap Numeral.text) ++ rest))
      (ds.map Numeral.value) := by
  induction ds generalizing pre with
  | nil => trivial
  | cons d ds ih =>
    obtain ⟨hnat, hint⟩ := read_numeral hpre d (bytes (ds.flatMap Numeral.text) ++ rest)
    rw [List.flatMap_cons, bytes_append, List.append_assoc]
    refine ⟨_, hnat, hint, ?_⟩
    have hsep : ∀ b ∈ [BitVec.ofNat 8 d.sep.toNat], isSpace b = true := by
      intro b hb
      rw [List.mem_singleton.1 hb]
      rcases d.isSep with h | h <;> rw [h] <;> decide
    exact ih hsep

/-! ## The export of `arcs-valmari` -/

/-- The numerals of the text. -/
def exportNumerals (g : WebGraph) : List Numeral :=
  [.spaced g.num_nodes, .spaced 0, .spaced 0, .spaced g.num_arcs, .ended 1] ++
    g.arcs.flatMap fun a => [.spaced (a.1 + 1), .spaced 1, .ended (a.2 + 1)]

variable {g : WebGraph}

theorem value_exportNumerals : (exportNumerals g).map Numeral.value = ArcsValmari.to_csv g := by
  rw [ArcsValmari.to_csv, WebGraph.rows_eq g fun src dst => [src + 1, 1, dst + 1], exportNumerals]
  simp [List.map_flatMap]

/-- The line of an arc. -/
theorem text_arcNumerals (src dst : ℕ) :
    [Numeral.spaced (src + 1), .spaced 1, .ended (dst + 1)].flatMap Numeral.text =
      (s!"{src + 1} 1 {dst + 1}\n").toList := by
  have hone : Nat.toDigits 10 1 = ['1'] := by decide
  simp [Numeral.text, Numeral.spaced, Numeral.ended, Numeral.print, toString, hone]

theorem text_exportNumerals :
    (exportNumerals g).flatMap Numeral.text = (ArcsValmari.text g).toList := by
  have hzero : Nat.toDigits 10 0 = ['0'] := by decide
  have hone : Nat.toDigits 10 1 = ['1'] := by decide
  have hfirst : [Numeral.spaced g.num_nodes, .spaced 0, .spaced 0, .spaced g.num_arcs,
      .ended 1].flatMap Numeral.text = (let n := g.num_nodes; let m := g.num_arcs;
        s!"{n} 0 0 {m} 1\n").toList := by
    simp [Numeral.text, Numeral.spaced, Numeral.ended, Numeral.print, toString, hzero, hone]
  rw [exportNumerals, List.flatMap_append, hfirst]
  simp only [ArcsValmari.text, String.toList_append, String.toList_join, List.flatMap_assoc,
    text_arcNumerals, WebGraph.arcs, List.flatMap_map]

/-- **What `MDP_read` makes of the text**: the number of arcs is read modulo `2 ^ 32`, and so many
arcs are stored; if the arrays are too large for this, it stops with an error. -/
theorem MDP_read_text (hn : 1 ≤ g.num_nodes) (hlt : g.num_nodes < 2 ^ 32) (fuel : ℕ) :
    MDP_read byteReader fuel (bytes (ArcsValmari.text g).toList) =
      if nodeT g.num_arcs + 1 = 2 ^ 32 then none
      else some { exported g with w_trans := (arcTransitions g).take (nodeT g.num_arcs) } := by
  have hout : HandsOut byteReader nodeT (bytes (ArcsValmari.text g).toList)
      (ArcsValmari.to_csv g) := by
    have h := @handsOut_numerals (exportNumerals g) [] (by simp) []
    rwa [List.nil_append, List.append_nil, value_exportNumerals, text_exportNumerals] at h
  have hlt' : nodeT g.num_arcs < 2 ^ 32 := Nat.mod_lt _ (by decide)
  obtain ⟨hsome, hnone⟩ := MDP_read_rows (fun x hx => nodeT_of_lt hx) (Nat.mod_le _ _) hn hlt hout
    fuel
  split_ifs with h
  · exact hnone h
  · exact hsome (by omega)

end Rbsc.PartRef
