import Rbsc.PartRef.Reader

/-!
# `part_ref`: the output

The class `writer` of `writer.cc`, on the characters that it puts out.  Decimal numbers are left
out: the weights are integers.

* `Wrote w ts`: the text is made of the numbers `ts`, each with a separator behind it but the last;
* `Lines w`: no line is longer than `max_on_line`;
* `handsOut_signed`: the reader hands out the numbers of such a text.
-/

namespace Rbsc.PartRef

open Stdin

/-- `writer`: what has been put out, and the number of characters on the most recent line. -/
structure Writer where
  os : List Char
  nr_on_line : ℕ

namespace Writer

/-- `max_on_line`. -/
def max_on_line : ℕ := 72

/-- `buf_size`. -/
def buf_size : ℕ := 20

/-- The characters put one by one. -/
def put (w : Writer) (text : List Char) : Writer := { w with os := w.os ++ text }

/-- `advance`. -/
def advance (w : Writer) (len : ℕ) : Writer :=
  if w.nr_on_line = 0 then { w with nr_on_line := len }
  else if max_on_line ≤ w.nr_on_line + len then { w.put ['\n'] with nr_on_line := len }
  else { w.put [' '] with nr_on_line := w.nr_on_line + (len + 1) }

/-- `new_line`. -/
def new_line (w : Writer) : Writer := { w.put ['\n'] with nr_on_line := 0 }

/-- `end_line`. -/
def end_line (w : Writer) : Writer := if w.nr_on_line ≠ 0 then w.new_line else w

/-- The loop that puts the digits into `buffer`, the last one first, when there is room for `room`
more; `buf_ovfl` leaves the program. -/
def fill_buffer : ℕ → ℕ → Option (List Char)
  | 0, _ => none
  | room + 1, nn =>
    if nn / 10 ≠ 0 then (fill_buffer room (nn / 10)).map (Char.ofNat (nn % 10 + 48) :: ·)
    else some [Char.ofNat (nn % 10 + 48)]

/-- `nat`. -/
def nat (w : Writer) (nn : ℕ) : Option Writer := do
  let buffer ← fill_buffer buf_size nn
  some ((w.advance buffer.length).put buffer.reverse)

/-- `intgr`. -/
def intgr (w : Writer) (nn : ℤ) : Option Writer := do
  let is_neg := if nn < 0 then ['-'] else []
  let buffer ← fill_buffer buf_size nn.natAbs
  some (((w.advance (buffer.length + is_neg.length)).put is_neg).put buffer.reverse)

end Writer

/-! ## Numbers in a text -/

/-- A numeral with a sign. -/
structure Signed where
  neg : Bool
  num : Numeral
  pos : neg = true → 0 < num.value

/-- The characters, up to the separator. -/
def Signed.text (d : Signed) : List Char := (if d.neg then ['-'] else []) ++ d.num.text

/-- The number that is written. -/
def Signed.value (d : Signed) : ℤ := if d.neg then -(d.num.value : ℤ) else d.num.value

/-- The characters of a number without a separator. -/
def IsNumber (l : List Char) (x : ℤ) : Prop :=
  ∀ sep, sep = ' ' ∨ sep = '\n' → ∃ d : Signed, d.text = l ++ [sep] ∧ d.value = x

/-- The numbers `ts` have been written, on finished lines or with the last one at the end. -/
inductive Wrote : Writer → List ℤ → Prop
  | ended (ds : List Signed) : Wrote ⟨ds.flatMap Signed.text, 0⟩ (ds.map Signed.value)
  | behind (ds : List Signed) {l : List Char} {x : ℤ} {k : ℕ} (hk : k ≠ 0) (hl : IsNumber l x) :
    Wrote ⟨ds.flatMap Signed.text ++ l, k⟩ (ds.map Signed.value ++ [x])

/-- No line is longer than `max_on_line`, and `nr_on_line` is the length of the last one. -/
def Lines (w : Writer) : Prop :=
  ∃ (ls : List (List Char)) (last : List Char), w.os = ls.flatMap (· ++ ['\n']) ++ last ∧
    last.length = w.nr_on_line ∧ ∀ l ∈ last :: ls, l.length ≤ Writer.max_on_line ∧ '\n' ∉ l

section

variable {w : Writer} {ts : List ℤ} {l : List Char} {x : ℤ}

/-- A further number. -/
theorem Wrote.token (h : Wrote w ts) (hl : IsNumber l x) {len : ℕ} (hlen : len ≠ 0) :
    Wrote ((w.advance len).put l) (ts ++ [x]) := by
  cases h with
  | ended ds => exact .behind ds hlen hl
  | @behind ds l₀ x₀ k hk hl₀ =>
    -- the separator ends the number before
    have hsep : ∀ sep : Char, sep = ' ' ∨ sep = '\n' → ∀ k' ≠ 0,
        Wrote ⟨(ds.flatMap Signed.text ++ l₀) ++ [sep] ++ l, k'⟩
          ((ds.map Signed.value ++ [x₀]) ++ [x]) := by
      intro sep hs k' hk'
      obtain ⟨d, htext, hvalue⟩ := hl₀ sep hs
      have hw := Wrote.behind (ds ++ [d]) hk' hl
      simpa [htext, hvalue] using hw
    unfold Writer.advance
    rw [if_neg hk]
    split_ifs
    · exact hsep '\n' (.inr rfl) len hlen
    · exact hsep ' ' (.inl rfl) _ (Nat.succ_ne_zero _)

theorem Wrote.end_line (h : Wrote w ts) :
    Wrote w.end_line ts ∧ w.end_line.nr_on_line = 0 := by
  cases h with
  | ended ds => exact ⟨.ended ds, rfl⟩
  | @behind ds l₀ x₀ k hk hl₀ =>
    obtain ⟨d, htext, hvalue⟩ := hl₀ '\n' (.inr rfl)
    unfold Writer.end_line
    rw [if_pos hk]
    refine ⟨?_, rfl⟩
    have hw := Wrote.ended (ds ++ [d])
    simpa [htext, hvalue, Writer.new_line, Writer.put] using hw

theorem Wrote.new_line (h : Wrote w ts) (hne : w.nr_on_line ≠ 0) : Wrote w.new_line ts := by
  have hw := h.end_line.1
  rwa [Writer.end_line, if_pos hne] at hw

/-- When the last line is ended every number has its separator. -/
theorem Wrote.text (h : Wrote w ts) (hend : w.nr_on_line = 0) :
    ∃ ds : List Signed, w.os = ds.flatMap Signed.text ∧ ds.map Signed.value = ts := by
  cases h with
  | ended ds => exact ⟨ds, rfl, rfl⟩
  | behind ds hk hl => exact absurd hend hk

theorem Lines.token (h : Lines w) (hl : '\n' ∉ l) (hlen : l.length < Writer.max_on_line) :
    Lines ((w.advance l.length).put l) := by
  obtain ⟨ls, last, hos, hlast, hall⟩ := h
  have hmax := hall last (List.mem_cons_self ..)
  unfold Writer.advance
  split_ifs with h₀ h₁
  · have hnil : last = [] := List.length_eq_zero_iff.1 (hlast.trans h₀)
    subst hnil
    refine ⟨ls, l, by rw [Writer.put, hos, List.append_nil], rfl, fun l' hl' => ?_⟩
    rcases List.mem_cons.1 hl' with rfl | hl'
    · exact ⟨hlen.le, hl⟩
    · exact hall l' (List.mem_cons_of_mem _ hl')
  · refine ⟨ls ++ [last], l, by simp [Writer.put, hos], rfl, fun l' hl' => ?_⟩
    rcases List.mem_cons.1 hl' with rfl | hl'
    · exact ⟨hlen.le, hl⟩
    · exact hall l' (by simpa [or_comm] using hl')
  · refine ⟨ls, last ++ ' ' :: l, by simp [Writer.put, hos], ?_, fun l' hl' => ?_⟩
    · simp [Writer.put, hlast]
    · rcases List.mem_cons.1 hl' with rfl | hl'
      · refine ⟨?_, by simp [hmax.2, hl]⟩
        rw [List.length_append, List.length_cons, hlast]
        omega
      · exact hall l' (List.mem_cons_of_mem _ hl')

theorem Lines.new_line (h : Lines w) : Lines w.new_line := by
  obtain ⟨ls, last, hos, hlast, hall⟩ := h
  refine ⟨ls ++ [last], [], by simp [Writer.new_line, Writer.put, hos], rfl, fun l' hl' => ?_⟩
  rcases List.mem_cons.1 hl' with rfl | hl'
  · exact ⟨Nat.zero_le _, List.not_mem_nil⟩
  · exact hall l' (by simpa [or_comm] using hl')

theorem Lines.end_line (h : Lines w) : Lines w.end_line := by
  unfold Writer.end_line
  split_ifs
  · exact h.new_line
  · exact h

/-! ## Digits -/

/-- The character of a digit. -/
theorem digit_char {k : ℕ} (hk : k < 10) : (Char.ofNat (k + 48)).isDigit = true ∧
    (Char.ofNat (k + 48)).toNat = k + 48 ∧ Char.ofNat (k + 48) ≠ '\n' := by
  interval_cases k <;> decide

/-- **The digits of a number**, in front of a separator, and as many as there is room for at most. -/
theorem fill_buffer_spec {room nn : ℕ} (hlt : nn < 10 ^ room) (hroom : 0 < room) :
    ∃ b, Writer.fill_buffer room nn = some b ∧ b ≠ [] ∧ b.length ≤ room ∧
      (∀ c ∈ b, c.isDigit = true ∧ c ≠ '\n') ∧ Nat.ofDigitChars 10 b.reverse 0 = nn := by
  induction room generalizing nn with
  | zero => omega
  | succ room ih =>
    have hdigit := digit_char (Nat.mod_lt nn (show 0 < 10 by decide))
    have hval : 10 * (nn / 10) + ((Char.ofNat (nn % 10 + 48)).toNat - '0'.toNat) = nn := by
      rw [hdigit.2.1]
      show 10 * (nn / 10) + (nn % 10 + 48 - 48) = nn
      omega
    rw [Writer.fill_buffer]
    by_cases hmore : nn / 10 ≠ 0
    · rw [if_pos hmore]
      have hroom' : 0 < room := by
        rcases Nat.eq_zero_or_pos room with rfl | hpos
        · omega
        · exact hpos
      have hdiv : nn / 10 < 10 ^ room := by
        rw [pow_succ] at hlt
        omega
      obtain ⟨b, hb, -, hlen, hall, hnum⟩ := ih hdiv hroom'
      rw [hb]
      refine ⟨_, rfl, List.cons_ne_nil _ _, by simpa using hlen, fun c hc => ?_, ?_⟩
      · rcases List.mem_cons.1 hc with rfl | hc
        · exact ⟨hdigit.1, hdigit.2.2⟩
        · exact hall c hc
      · rw [List.reverse_cons, Nat.ofDigitChars_append, hnum, Nat.ofDigitChars_cons,
          Nat.ofDigitChars_nil, hval]
    · rw [if_neg hmore]
      refine ⟨_, rfl, List.cons_ne_nil _ _, by simp, fun c hc => ?_, ?_⟩
      · rw [List.mem_singleton.1 hc]
        exact ⟨hdigit.1, hdigit.2.2⟩
      · rw [List.reverse_singleton, Nat.ofDigitChars_cons, Nat.ofDigitChars_nil]
        omega

/-- A sign and digits are a number. -/
theorem isNumber_digits {b : List Char} (hb : b ≠ []) (hall : ∀ c ∈ b, c.isDigit = true) {k : ℕ}
    (hk : Nat.ofDigitChars 10 b 0 = k) (neg : Bool) (hpos : neg = true → 0 < k) :
    IsNumber ((if neg then ['-'] else []) ++ b) (if neg then -(k : ℤ) else k) := by
  intro sep hsep
  subst hk
  refine ⟨⟨neg, ⟨b, sep, hall, hb, hsep⟩, hpos⟩, ?_, rfl⟩
  rw [Signed.text, Numeral.text, List.append_assoc]

/-- **`nat` and `intgr`** write one number. -/
theorem Writer.nat_spec (h : Wrote w ts) (hlines : Lines w) {k : ℕ} (hk : k < 10 ^ 20) :
    ∃ w', w.nat k = some w' ∧ Wrote w' (ts ++ [(k : ℤ)]) ∧ Lines w' := by
  obtain ⟨b, hb, hne, hlen, hall, hnum⟩ := fill_buffer_spec hk (by decide)
  have hrev : b.reverse.length = b.length := List.length_reverse
  have hl := isNumber_digits (List.reverse_ne_nil_iff.2 hne)
    (fun c hc => (hall c (List.mem_reverse.1 hc)).1) hnum false (by simp)
  refine ⟨_, by rw [Writer.nat, Writer.buf_size, hb]; rfl, ?_, ?_⟩
  · exact h.token hl fun h₀ => hne (List.length_eq_zero_iff.1 h₀)
  · rw [← hrev]
    refine hlines.token (fun hmem => (hall _ (List.mem_reverse.1 hmem)).2 rfl) ?_
    rw [hrev]
    exact hlen.trans_lt (by decide)

/-- Behind a number the line is not empty. -/
theorem Writer.nat_open {k : ℕ} {w' : Writer} (h : w.nat k = some w') : w'.nr_on_line ≠ 0 := by
  obtain ⟨b, hb, h⟩ := Option.bind_eq_some_iff.1 h
  have hne : b ≠ [] := by
    rintro rfl
    rw [Writer.buf_size, Writer.fill_buffer] at hb
    split_ifs at hb
    · obtain ⟨b, -, hnil⟩ := Option.map_eq_some_iff.1 hb
      exact List.cons_ne_nil _ _ hnil
    · exact List.cons_ne_nil _ _ (Option.some.inj hb)
  have hlen : b.length ≠ 0 := fun h₀ => hne (List.length_eq_zero_iff.1 h₀)
  cases h
  unfold Writer.advance
  split_ifs
  · exact hlen
  · exact hlen
  · exact Nat.succ_ne_zero _

theorem Writer.intgr_spec (h : Wrote w ts) (hlines : Lines w) {x : ℤ} (hx : x.natAbs < 10 ^ 20) :
    ∃ w', w.intgr x = some w' ∧ Wrote w' (ts ++ [x]) ∧ Lines w' := by
  obtain ⟨b, hb, hne, hlen, hall, hnum⟩ := fill_buffer_spec hx (by decide)
  have hl := isNumber_digits (List.reverse_ne_nil_iff.2 hne)
    (fun c hc => (hall c (List.mem_reverse.1 hc)).1) hnum (decide (x < 0))
    (by simp; omega)
  have hvalue : (if decide (x < 0) = true then -(x.natAbs : ℤ) else x.natAbs) = x := by
    split_ifs with hneg
    · have := of_decide_eq_true hneg
      omega
    · have := of_decide_eq_false (Bool.eq_false_iff.2 hneg)
      omega
  rw [hvalue] at hl
  simp only [decide_eq_true_eq] at hl
  generalize hsign : (if x < 0 then ['-'] else []) = is_neg at hl
  have hsign' : '\n' ∉ is_neg ∧ is_neg.length ≤ 1 := by
    rw [← hsign]
    split_ifs <;> simp
  have htotal : (is_neg ++ b.reverse).length = b.length + is_neg.length := by
    rw [List.length_append, List.length_reverse, Nat.add_comm]
  refine ⟨(w.advance (b.length + is_neg.length)).put (is_neg ++ b.reverse), ?_, ?_, ?_⟩
  · rw [Writer.intgr, hsign, Writer.buf_size, hb]
    simp [Writer.put]
  · refine h.token hl fun h₀ => hne (List.length_eq_zero_iff.1 (by omega))
  · rw [← htotal]
    refine hlines.token (fun hmem => ?_) (by rw [htotal]; unfold Writer.max_on_line; omega)
    rcases List.mem_append.1 hmem with hmem | hmem
    · exact hsign'.1 hmem
    · exact (hall _ (List.mem_reverse.1 hmem)).2 rfl

end

/-! ## The numbers are read back -/

/-- The reader hands out the integers one by one, each as a natural number too when it is one. -/
def HandsOutInts {σ : Type} (rd : Reader σ) : σ → List ℤ → Prop
  | _, [] => True
  | s, x :: l => ∃ s', (∀ k : ℕ, x = k → k < 2 ^ 32 → rd.nat s = some (k, s')) ∧
      (x.natAbs < 2 ^ 31 → rd.intgr s = some (x, s')) ∧ HandsOutInts rd s' l

/-- A numeral behind a minus sign. -/
theorem intgr_minus {pre : List Byte} (hpre : ∀ b ∈ pre, isSpace b = true) (d : Numeral)
    (rest : List Byte) (hlt : d.value < 2 ^ 31) :
    intgr (pre ++ (bytes ('-' :: d.text) ++ rest)) =
      some (-(d.value : ℤ), BitVec.ofNat 8 d.sep.toNat :: rest) := by
  obtain ⟨digits, sep, hdigits, hne, hsep⟩ := d
  obtain ⟨c, digits, rfl⟩ := List.exists_cons_of_ne_nil hne
  obtain ⟨hdig, hval, -, hplus, hminus⟩ := digit_cases (hdigits c (List.mem_cons_self ..))
  have hb : isDigit (BitVec.ofNat 8 sep.toNat) = false := by
    rcases hsep with rfl | rfl <;> decide
  have hread := read_digits_numeral (fun c hc => hdigits c (List.mem_cons_of_mem _ hc)) hb
    (c.toNat - 48) rest
  have hvalue : Numeral.value ⟨c :: digits, sep, hdigits, hne, hsep⟩ =
      Nat.ofDigitChars 10 digits (c.toNat - 48) := by
    rw [Numeral.value, Nat.ofDigitChars_cons, Nat.mul_zero, Nat.zero_add]
    rfl
  have hskip : skip_spaces (pre ++ (bytes ('-' :: Numeral.text
      ⟨c :: digits, sep, hdigits, hne, hsep⟩) ++ rest)) = 0x2d#8 :: BitVec.ofNat 8 c.toNat ::
        (bytes digits ++ BitVec.ofNat 8 sep.toNat :: rest) := by
    rw [skip_spaces_append hpre, bytes_cons, List.cons_append, skip_spaces, if_neg (by decide),
      Numeral.bytes_text, bytes_cons, List.cons_append]
    rfl
  rw [intgr, hskip, read_signs, if_pos (.inr rfl), if_pos rfl, read_signs,
    if_neg (by simp [hplus, hminus])]
  dsimp only
  rw [if_pos hdig, hval, hread, ← hvalue]
  rw [hvalue] at hlt ⊢
  generalize Nat.ofDigitChars 10 digits (c.toNat - 48) = v at hlt
  have hneg : (-BitVec.ofNat 32 v).toInt = -(v : ℤ) := by
    rw [BitVec.toInt_neg, toInt_ofNat_of_lt hlt]
    exact Int.bmod_eq_of_le (by omega) (by omega)
  dsimp only
  rw [← hneg]
  rfl

theorem handsOut_signed (ds : List Signed) {pre : List Byte}
    (hpre : ∀ b ∈ pre, isSpace b = true) (rest : List Byte) :
    HandsOutInts byteReader (pre ++ (bytes (ds.flatMap Signed.text) ++ rest))
      (ds.map Signed.value) := by
  induction ds generalizing pre with
  | nil => trivial
  | cons d ds ih =>
    have hsep : ∀ b ∈ [BitVec.ofNat 8 d.num.sep.toNat], isSpace b = true := by
      intro b hb
      rw [List.mem_singleton.1 hb]
      rcases d.num.isSep with h | h <;> rw [h] <;> decide
    rw [List.flatMap_cons, bytes_append, List.append_assoc]
    refine ⟨BitVec.ofNat 8 d.num.sep.toNat :: (bytes (ds.flatMap Signed.text) ++ rest),
      fun k hk hlt => ?_, fun hlt => ?_, ih hsep⟩
    · have hpos : d.neg = false := by
        by_contra hneg
        have hneg : d.neg = true := by simpa using hneg
        have := d.pos hneg
        rw [Signed.value, if_pos hneg] at hk
        omega
      have hvalue : d.num.value = k := by
        rw [Signed.value, hpos] at hk
        simpa using hk
      rw [Signed.text, hpos]
      have hread := (read_numeral hpre d.num (bytes (ds.flatMap Signed.text) ++ rest)).1
      rw [hvalue, nodeT_of_lt hlt] at hread
      exact hread
    · rw [Signed.text, Signed.value]
      rw [Signed.value] at hlt
      by_cases hneg : d.neg = true
      · rw [if_pos hneg, if_pos hneg] at *
        exact intgr_minus hpre d.num _ (by omega)
      · rw [if_neg hneg] at *
        rw [if_neg hneg]
        exact (read_numeral hpre d.num _).2 (by omega)

end Rbsc.PartRef
