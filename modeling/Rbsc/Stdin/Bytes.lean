import Rbsc.Hash
import Rbsc.Lib.Loop
import Rbsc.Lib.Fields

/-!
# The standard input

`read_uint64` of both programs on the bytes of the standard input.  `getchar` returns `EOF` for ever
when no byte is left, and `char` is signed, so that `EOF` becomes the character `-1`, which is no
separator: the loop returns exactly when a separator is left (`read_uint64_none`,
`read_uint64_some`).

* `number`: the value of a field, modulo `2 ^ 64`;
* `Numeral`: decimal digits and the separator behind them; `read_uint64_numeral`: its value is read
  back, and the bytes behind it stay.
-/

namespace Rbsc.Stdin

open DoWhile Fields

/-- A byte, and also the bits of a `char`. -/
abbrev Byte := BitVec 8

/-- `getchar()`: an `int`, `EOF` when no byte is left. -/
def getchar : List Byte → ℤ × List Byte
  | [] => (-1, [])
  | b :: rest => (b.toNat, rest)

/-- The conversion of an `int` to `char`. -/
def toChar (c : ℤ) : Byte := BitVec.ofInt 8 c

/-- `ch == ' ' || ch == '\n'`. -/
def isSep (ch : Byte) : Bool := ch = 0x20#8 || ch = 0x0a#8

/-- The variables of the loop of `read_uint64`. -/
structure Scan where
  ch : Byte
  n : Word
  stdin : List Byte

/-- `ch - '0'`, an `int` that is converted to `uint64_t`. -/
def digit (ch : Byte) : Word := BitVec.ofInt 64 (ch.toInt - 48)

/-- The body of the loop of `read_uint64`. -/
def scan_step (s : Scan) : Option Scan :=
  let c := digit s.ch
  let r := getchar s.stdin
  some { ch := toChar r.1, n := s.n * 10 + c, stdin := r.2 }

/-- `read_uint64`, given up after `fuel` characters. -/
def read_uint64 (fuel : ℕ) (stdin : List Byte) : Option (ℕ × List Byte) :=
  let r := getchar stdin
  (whileDo scan_step (fun s => !isSep s.ch) fuel { ch := toChar r.1, n := 0, stdin := r.2 }).map
    fun s => (s.n.toNat, s.stdin)

/-- What `read_uint64` makes of the characters before a separator. -/
def number (f : List Byte) : Word := f.foldl (fun n ch => n * 10 + digit ch) 0

/-- The numbers in the fields of the input. -/
def numbers (stdin : List Byte) : List ℕ := (fields isSep stdin).map fun f => (number f).toNat

/-! ## The loop -/

theorem toChar_getchar_cons (b : Byte) (rest : List Byte) : toChar (getchar (b :: rest)).1 = b := by
  simp [getchar, toChar]

theorem isSep_eof : isSep (toChar (getchar []).1) = false := by decide

/-- The loop from a character on that a separator follows. -/
theorem scan_loop {f rest : List Byte} {s : Byte} (hf : ∀ b ∈ f, isSep b = false)
    (hs : isSep s = true) {fuel : ℕ} (hfuel : f.length ≤ fuel) (n : Word) :
    let r := getchar (f ++ s :: rest)
    whileDo scan_step (fun s => !isSep s.ch) fuel { ch := toChar r.1, n := n, stdin := r.2 } =
      some { ch := s, n := f.foldl (fun n ch => n * 10 + digit ch) n, stdin := rest } := by
  induction f generalizing n fuel with
  | nil =>
    rw [List.nil_append]
    simp only [toChar_getchar_cons]
    rw [whileDo, if_neg (by simp [hs])]
    rfl
  | cons b f ih =>
    have hb : isSep b = false := hf b (List.mem_cons_self ..)
    obtain ⟨fuel, rfl⟩ : ∃ k, fuel = k + 1 := ⟨fuel - 1, by rw [List.length_cons] at hfuel; omega⟩
    rw [List.cons_append]
    simp only [toChar_getchar_cons]
    rw [whileDo, if_pos (by simp [hb]), doWhile]
    exact ih (fun b hb => hf b (List.mem_cons_of_mem _ hb)) (Nat.le_of_succ_le_succ hfuel) _

/-- **A number with a separator behind it is read.** -/
theorem read_uint64_some {f rest : List Byte} {s : Byte} (hf : ∀ b ∈ f, isSep b = false)
    (hs : isSep s = true) {fuel : ℕ} (hfuel : f.length ≤ fuel) :
    read_uint64 fuel (f ++ s :: rest) = some ((number f).toNat, rest) := by
  rw [read_uint64, scan_loop hf hs hfuel]
  rfl

/-- The loop does not end when no separator is left. -/
theorem scan_loop_none {stdin : List Byte} (h : ∀ b ∈ stdin, isSep b = false) (fuel : ℕ) (n : Word) :
    let r := getchar stdin
    whileDo scan_step (fun s => !isSep s.ch) fuel { ch := toChar r.1, n := n, stdin := r.2 } =
      none := by
  induction fuel generalizing n stdin with
  | zero =>
    have hr : isSep (toChar (getchar stdin).1) = false := by
      cases stdin with
      | nil => exact isSep_eof
      | cons b rest => rw [toChar_getchar_cons]; exact h b (List.mem_cons_self ..)
    dsimp only
    rw [whileDo, if_pos (by simp [hr])]
    rfl
  | succ fuel ih =>
    cases stdin with
    | nil =>
      dsimp only
      rw [whileDo, if_pos (by rw [isSep_eof]; rfl), doWhile]
      exact ih h _
    | cons b rest =>
      dsimp only
      rw [toChar_getchar_cons, whileDo, if_pos (by simp [h b (List.mem_cons_self ..)]), doWhile]
      exact ih (fun b hb => h b (List.mem_cons_of_mem _ hb)) _

/-- **Without a separator it does not return.** -/
theorem read_uint64_none {stdin : List Byte} (h : ∀ b ∈ stdin, isSep b = false) (fuel : ℕ) :
    read_uint64 fuel stdin = none := by
  rw [read_uint64, scan_loop_none h]
  rfl

/-- More characters change nothing. -/
theorem read_uint64_mono {stdin : List Byte} {fuel fuel' : ℕ} {r : ℕ × List Byte}
    (hle : fuel ≤ fuel') (h : read_uint64 fuel stdin = some r) :
    read_uint64 fuel' stdin = some r := by
  obtain ⟨s, hs, rfl⟩ := Option.map_eq_some_iff.1 h
  rw [read_uint64, whileDo_mono hle hs]
  rfl

/-! ## Fields -/

theorem numbers_append_sep {f rest : List Byte} {s : Byte} (hf : ∀ b ∈ f, isSep b = false)
    (hs : isSep s = true) :
    numbers (f ++ s :: rest) = (number f).toNat :: numbers rest := by
  rw [numbers, fields_append_sep hf hs]
  rfl

/-- What is read is the number in the first field. -/
theorem numbers_of_read {stdin rest : List Byte} {fuel x : ℕ}
    (h : read_uint64 fuel stdin = some (x, rest)) : numbers stdin = x :: numbers rest := by
  cases hf : fields isSep stdin with
  | nil =>
    rw [read_uint64_none (forall_of_fields_nil hf)] at h
    cases h
  | cons f fs =>
    obtain ⟨s, rest', rfl, hsep, hs, -⟩ := exists_of_fields_cons hf
    have hread := @read_uint64_some f rest' s hsep hs _ (le_max_right fuel f.length)
    rw [read_uint64_mono (le_max_left fuel f.length) h] at hread
    cases hread
    exact numbers_append_sep hsep hs

/-- The number in the first field is read. -/
theorem read_of_numbers {stdin : List Byte} {fuel x : ℕ} {l : List ℕ}
    (h : numbers stdin = x :: l) (hfuel : stdin.length ≤ fuel) :
    ∃ rest, read_uint64 fuel stdin = some (x, rest) ∧ numbers rest = l ∧ rest.length ≤ fuel := by
  cases hf : fields isSep stdin with
  | nil =>
    rw [numbers, hf] at h
    cases h
  | cons f fs =>
    obtain ⟨s, rest, rfl, hsep, hs, rfl⟩ := exists_of_fields_cons hf
    rw [numbers_append_sep hsep hs] at h
    cases h
    rw [List.length_append, List.length_cons] at hfuel
    exact ⟨rest, read_uint64_some hsep hs (by omega), rfl, by omega⟩

/-! ## Numerals -/

/-- The bytes of a text of ASCII characters. -/
def bytes (text : List Char) : List Byte := text.map fun c => BitVec.ofNat 8 c.toNat

@[simp] theorem bytes_append (a b : List Char) : bytes (a ++ b) = bytes a ++ bytes b :=
  List.map_append

@[simp] theorem bytes_cons (c : Char) (text : List Char) :
    bytes (c :: text) = BitVec.ofNat 8 c.toNat :: bytes text := rfl

/-- A decimal number as it stands in a file: its digits and one separator. -/
structure Numeral where
  digits : List Char
  sep : Char
  isDigit : ∀ c ∈ digits, c.isDigit = true
  nonempty : digits ≠ []
  isSep : sep = ' ' ∨ sep = '\n'

/-- The characters of the number. -/
def Numeral.text (d : Numeral) : List Char := d.digits ++ [d.sep]

/-- The number that is written. -/
def Numeral.value (d : Numeral) : ℕ := Nat.ofDigitChars 10 d.digits 0

/-- The number as it is printed, with the separator behind it. -/
def Numeral.print (n : ℕ) (sep : Char) (h : sep = ' ' ∨ sep = '\n') : Numeral where
  digits := Nat.toDigits 10 n
  sep := sep
  isDigit _ hc := Nat.isDigit_of_mem_toDigits (by decide) (by decide) hc
  nonempty := Nat.toDigits_ne_nil
  isSep := h

/-- The number with a space behind it. -/
def Numeral.spaced (n : ℕ) : Numeral := .print n ' ' (.inl rfl)

/-- The number at the end of a line. -/
def Numeral.ended (n : ℕ) : Numeral := .print n '\n' (.inr rfl)

@[simp] theorem Numeral.value_spaced (n : ℕ) : (Numeral.spaced n).value = n :=
  Nat.ofDigitChars_ten_toDigits

@[simp] theorem Numeral.value_ended (n : ℕ) : (Numeral.ended n).value = n :=
  Nat.ofDigitChars_ten_toDigits

theorem digit_byte {c : Char} (hc : c.isDigit = true) :
    digit (BitVec.ofNat 8 c.toNat) = BitVec.ofNat 64 (c.toNat - 48) ∧
      isSep (BitVec.ofNat 8 c.toNat) = false := by
  obtain ⟨h₁, h₂⟩ := Char.isDigit_iff_toNat.1 hc
  have h₁ : 48 ≤ c.toNat := h₁
  have h₂ : c.toNat ≤ 57 := h₂
  generalize c.toNat = k at h₁ h₂
  interval_cases k <;> decide

theorem number_digits {l : List Char} (hl : ∀ c ∈ l, c.isDigit = true) (init : ℕ) :
    (bytes l).foldl (fun n ch => n * 10 + digit ch) (BitVec.ofNat 64 init) =
      BitVec.ofNat 64 (Nat.ofDigitChars 10 l init) := by
  induction l generalizing init with
  | nil => rw [Nat.ofDigitChars_nil]; rfl
  | cons c l ih =>
    have hc := (digit_byte (hl c (List.mem_cons_self ..))).1
    have hword : BitVec.ofNat 64 init * 10 + BitVec.ofNat 64 (c.toNat - 48) =
        BitVec.ofNat 64 (10 * init + (c.toNat - '0'.toNat)) := by
      rw [Nat.mul_comm, BitVec.ofNat_add, BitVec.ofNat_mul]
      rfl
    rw [bytes_cons, List.foldl_cons, hc, hword, Nat.ofDigitChars_cons]
    exact ih (fun c hc => hl c (List.mem_cons_of_mem _ hc)) _

/-- The digits hold no separator. -/
theorem Numeral.digits_sep (d : Numeral) : ∀ b ∈ bytes d.digits, Stdin.isSep b = false := by
  intro b hb
  obtain ⟨c, hc, rfl⟩ := List.mem_map.1 hb
  exact (digit_byte (d.isDigit c hc)).2

theorem Numeral.sep_isSep (d : Numeral) : Stdin.isSep (BitVec.ofNat 8 d.sep.toNat) = true := by
  rcases d.isSep with h | h <;> rw [h] <;> decide

theorem Numeral.bytes_text (d : Numeral) (rest : List Byte) :
    bytes d.text ++ rest = bytes d.digits ++ BitVec.ofNat 8 d.sep.toNat :: rest := by
  rw [Numeral.text, bytes_append, List.append_assoc]
  rfl

theorem Numeral.number_eq (d : Numeral) : (number (bytes d.digits)).toNat = d.value % 2 ^ 64 := by
  rw [number, show (0 : Word) = BitVec.ofNat 64 0 from rfl, number_digits d.isDigit]
  rfl

/-- **A numeral is read back** modulo `2 ^ 64`, and the bytes behind it stay. -/
theorem read_uint64_numeral (d : Numeral) (rest : List Byte) {fuel : ℕ}
    (hfuel : d.digits.length ≤ fuel) :
    read_uint64 fuel (bytes d.text ++ rest) = some (d.value % 2 ^ 64, rest) := by
  rw [d.bytes_text, read_uint64_some d.digits_sep d.sep_isSep (by rwa [bytes, List.length_map]),
    d.number_eq]

end Rbsc.Stdin
