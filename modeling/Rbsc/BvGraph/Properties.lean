import Rbsc.BvGraph.Model

/-!
# The properties file

The lines `key=value` of a `.properties` file; java-properties reads a later line for a key in place
of an earlier one.  The three ratios, floating-point numbers that nothing reads, are left out; the
square of the number of nodes that one of them takes wraps in a release build.

* `to_properties_isSome`: flags that have a properties file;
* `parse_properties_written`: what is read back are the numbers and the flags, but every ζ that has
  a flag is read as ζ₃, and the largest count of references as the default: `k` is written as `zetak`
  and looked up as `zeta_k`, and `maxrefcount` is not looked up.
-/

namespace Rbsc.BvGraph

/-- The endianness of a graph file. -/
inductive Endianness
  | BE
  | LE
deriving DecidableEq

/-- `E::NAME`. -/
def Endianness.NAME : Endianness → List Char
  | .BE => "big".toList
  | .LE => "little".toList

/-- The bits of each byte in the other direction. -/
def swap_bytes : List Bool → List Bool
  | a :: b :: c :: d :: e :: f :: g :: h :: rest =>
    h :: g :: f :: e :: d :: c :: b :: a :: swap_bytes rest
  | rest => rest.reverse

/-- From the bits of a stream to those of its file, and back.  The bits of a byte are those from the
highest on, and a little-endian stream has them from the lowest on. -/
def Endianness.order : Endianness → List Bool → List Bool
  | .BE, bits => bits
  | .LE, bits => swap_bytes bits

theorem swap_bytes_of_lt {bits : List Bool} (h : bits.length < 8) : swap_bytes bits = bits.reverse := by
  rw [swap_bytes]
  rintro a b c d e f g h' rest rfl
  simp only [List.length_cons] at h
  omega

theorem swap_bytes_swap_bytes (bits : List Bool) : swap_bytes (swap_bytes bits) = bits := by
  induction bits using swap_bytes.induct with
  | case1 a b c d e f g h rest ih => rw [swap_bytes, swap_bytes, ih]
  | case2 rest hrest =>
    have hlt : rest.length < 8 := by
      by_contra hle
      obtain ⟨a, b, c, d, e, f, g, h, rest', rfl⟩ : ∃ a b c d e f g h rest',
          rest = a :: b :: c :: d :: e :: f :: g :: h :: rest' := by
        match rest, hle with
        | a :: b :: c :: d :: e :: f :: g :: h :: rest', _ => exact ⟨_, _, _, _, _, _, _, _, _, rfl⟩
        | [], hle | [_], hle | [_, _], hle | [_, _, _], hle | [_, _, _, _], hle
        | [_, _, _, _, _], hle | [_, _, _, _, _, _], hle | [_, _, _, _, _, _, _], hle => simp at hle
      exact hrest a b c d e f g h rest' rfl
    rw [swap_bytes_of_lt hlt, swap_bytes_of_lt (by rwa [List.length_reverse]), List.reverse_reverse]

theorem length_swap_bytes (bits : List Bool) : (swap_bytes bits).length = bits.length := by
  induction bits using swap_bytes.induct with
  | case1 a b c d e f g h rest ih => simp [swap_bytes, ih]
  | case2 rest hrest => rw [swap_bytes.eq_2 rest hrest, List.length_reverse]

@[simp] theorem Endianness.length_order (E : Endianness) (bits : List Bool) :
    (E.order bits).length = bits.length := by
  cases E with
  | BE => rfl
  | LE => exact length_swap_bytes bits

@[simp] theorem Endianness.order_order (E : Endianness) (bits : List Bool) :
    E.order (E.order bits) = bits := by
  cases E with
  | BE => rfl
  | LE => exact swap_bytes_swap_bytes bits

/-- `n.to_string()`. -/
def to_text (n : ℕ) : List Char := Nat.toDigits 10 n

/-- `s.parse::<usize>()` and `s.parse::<u64>()`. -/
def parse_u64 (s : List Char) : Option ℕ :=
  let digits := if s.head? = some '+' then s.tail else s
  if digits ≠ [] ∧ digits.all Char.isDigit then
    let n := Nat.ofDigitChars 10 digits 0
    if n < 2 ^ 64 then some n else none
  else none

namespace CompFlags

/-- `code_from_str`. -/
def code_from_str (s : List Char) (k : ℕ) : Option Codes :=
  let s := s.map Char.toUpper
  if s = "UNARY".toList then some .unary
  else if s = "GAMMA".toList then some .gamma
  else if s = "DELTA".toList then some .delta
  else if s = "ZETA".toList then some (.zeta k)
  else none

/-- `code_to_str`. -/
def code_to_str : Codes → Option (List Char)
  | .unary => some "UNARY".toList
  | .gamma => some "GAMMA".toList
  | .delta => some "DELTA".toList
  | .zeta _ => some "ZETA".toList
  | .other _ => none

/-! ### Writing -/

/-- A flag, for a code that is not the default. -/
def push_flag (name : List Char) (code : Codes) (is_default : Bool) : Option (List (List Char)) :=
  if is_default then some []
  else (code_to_str code).map fun c => [name ++ '_' :: c]

/-- `matches!(code, Codes::Zeta { k: _ })`. -/
def is_zeta : Codes → Bool
  | .zeta _ => true
  | _ => false

/-- The flags that are written. -/
def push_flags [CodesEq] (cf : CompFlags) : Option (List (List Char)) := do
  let outdegrees ← push_flag "OUTDEGREES".toList cf.outdegrees (CodesEq.eq cf.outdegrees .gamma)
  let references ← push_flag "REFERENCES".toList cf.references (CodesEq.eq cf.references .unary)
  let blocks ← push_flag "BLOCKS".toList cf.blocks (CodesEq.eq cf.blocks .gamma)
  let intervals ← push_flag "INTERVALS".toList cf.intervals (CodesEq.eq cf.intervals .gamma)
  let residuals ← push_flag "RESIDUALS".toList cf.residuals (is_zeta cf.residuals)
  some (outdegrees ++ references ++ blocks ++ intervals ++ residuals)

/-- The value of `compressionflags`: a bar behind each flag, and the last one taken back. -/
def compressionflags (flags : List (List Char)) : List Char :=
  (flags.flatMap fun flag => flag ++ ['|']).dropLast

/-- `check_and_set_k!`. -/
def check_and_set_k (k : Option ℕ) : Codes → Option (Option ℕ)
  | .zeta new_k =>
    match k with
    | some old_k => if old_k = new_k then some (some new_k) else none
    | none => some (some new_k)
  | _ => some k

/-- The codes of the flags, in the order of the checks. -/
def codes (cf : CompFlags) : List Codes :=
  [cf.outdegrees, cf.references, cf.blocks, cf.intervals, cf.residuals]

/-- `to_properties`: the keys with their values. -/
def to_properties [CodesEq] (E : Endianness) (cf : CompFlags)
    (num_nodes num_arcs bitstream_len : ℕ) : Option (List (String × List Char)) := do
  let flags ← cf.push_flags
  let k ← cf.codes.foldlM check_and_set_k none
  some
    [("graphclass", "it.unimi.dsi.webgraph.BVGraph".toList),
      ("version", if E = .BE then "0".toList else "1".toList),
      ("endianness", E.NAME),
      ("nodes", to_text num_nodes),
      ("arcs", to_text num_arcs),
      ("minintervallength", to_text cf.min_interval_length),
      ("maxrefcount", to_text cf.max_ref_count),
      ("windowsize", to_text cf.compression_window),
      ("length", to_text bitstream_len),
      ("compressionflags", compressionflags flags),
      ("zetak", to_text (k.getD 3))]

/-! ### Reading -/

/-- The `match` on the name of a flag. -/
def set_code [CodesEq] (cf : CompFlags) (code : Codes) (name : List Char) : Option CompFlags :=
  if name = "OUTDEGREES".toList then some { cf with outdegrees := code }
  else if name = "REFERENCES".toList then some { cf with references := code }
  else if name = "BLOCKS".toList then some { cf with blocks := code }
  else if name = "INTERVALS".toList then some { cf with intervals := code }
  else if name = "RESIDUALS".toList then some { cf with residuals := code }
  else if name = "OFFSETS".toList then
    if CodesEq.eq code .gamma then some cf else none
  else none

/-- One flag. -/
def set_flag [CodesEq] (k : ℕ) (cf : CompFlags) (flag : List Char) : Option CompFlags := do
  let s := flag.splitOn '_'
  let code ← code_from_str (← s[1]?) k
  set_code cf code (← s[0]?)

/-- `k`, from a property. -/
def spec_k (s : List Char) : Option ℕ := do
  let k ← parse_u64 s
  if 1 ≤ k ∧ k ≤ 7 then some k else none

/-- The flags with the codes of the property `compressionflags`. -/
def read_codes [CodesEq] (k : ℕ) : Option (List Char) → Option CompFlags
  | some comp_flags =>
    if comp_flags = [] then some default
    else (comp_flags.splitOn '|').foldlM (set_flag k) default
  | none => some default

/-- `from_properties`. -/
def from_properties [CodesEq] (E : Endianness) (map : String → Option (List Char)) :
    Option CompFlags := do
  if (map "endianness").getD Endianness.BE.NAME ≠ E.NAME then none
  else if E = .LE ∧ (map "version").bind parse_u64 ≠ some 1 then none
  else
    let k ← match map "zeta_k" with
      | some s => spec_k s
      | none => some 3
    let cf ← read_codes k (map "compressionflags")
    let cf ← match map "windowsize" with
      | some s => (parse_u64 s).map fun w => { cf with compression_window := w }
      | none => some cf
    match map "minintervallength" with
    | some s => (parse_u64 s).map fun m => { cf with min_interval_length := m }
    | none => some cf

/-- `map.get`, in the map that java-properties makes of the lines. -/
def get (lines : List (String × List Char)) (key : String) : Option (List Char) :=
  lines.reverse.lookup key

/-- `get_endianness`, and the `match` of a command on its result. -/
def get_endianness (lines : List (String × List Char)) : Option Endianness :=
  let name := (get lines "endianness").getD Endianness.BE.NAME
  if name = Endianness.BE.NAME then some .BE
  else if name = Endianness.LE.NAME then some .LE
  else none

/-- `parse_properties`. -/
def parse_properties [CodesEq] (E : Endianness) (lines : List (String × List Char)) :
    Option (ℕ × ℕ × CompFlags) := do
  let num_nodes ← parse_u64 (← get lines "nodes")
  let num_arcs ← parse_u64 (← get lines "arcs")
  let comp_flags ← from_properties E (get lines)
  some (num_nodes, num_arcs, comp_flags)

/-! ### Numbers and codes -/

theorem parse_to_text {n : ℕ} (hn : n < 2 ^ 64) : parse_u64 (to_text n) = some n := by
  have hdigit : ∀ c ∈ Nat.toDigits 10 n, c.isDigit = true := fun c hc =>
    Nat.isDigit_of_mem_toDigits (by decide) (by decide) hc
  have hplus : ¬(Nat.toDigits 10 n).head? = some '+' := fun h => by
    have := hdigit '+' (List.mem_of_head? h)
    revert this
    decide
  have hall : (Nat.toDigits 10 n).all Char.isDigit = true := List.all_eq_true.2 hdigit
  unfold parse_u64 to_text
  rw [if_neg hplus, if_pos ⟨Nat.toDigits_ne_nil, hall⟩, Nat.ofDigitChars_ten_toDigits, if_pos hn]

/-- The code that is read for one that has a flag. -/
def reread_code : Codes → Codes
  | .zeta _ => .zeta 3
  | code => code

theorem reread_code_eq_iff {code : Codes} :
    reread_code code = code ↔ ∀ k, code = .zeta k → k = 3 := by
  cases code <;> simp [reread_code, eq_comm]

/-- The code that is read for one that has no flag if it is equal to the default. -/
def reread_flag [CodesEq] (code default : Codes) : Codes :=
  if CodesEq.eq code default then default else reread_code code

/-- The flags that are read for those that were written. -/
def reread [CodesEq] (cf : CompFlags) : CompFlags where
  outdegrees := reread_flag cf.outdegrees .gamma
  references := reread_flag cf.references .unary
  blocks := reread_flag cf.blocks .gamma
  intervals := reread_flag cf.intervals .gamma
  residuals := reread_code cf.residuals
  min_interval_length := cf.min_interval_length
  compression_window := cf.compression_window
  max_ref_count := 3

theorem code_from_to_str {code : Codes} {s : List Char} (h : code_to_str code = some s) :
    code_from_str s 3 = some (reread_code code) := by
  cases code <;> cases h <;> rfl

theorem code_to_str_not_mem {code : Codes} {s : List Char} (h : code_to_str code = some s) :
    '_' ∉ s ∧ '|' ∉ s := by
  cases code <;> cases h <;> decide

theorem code_to_str_isSome {code : Codes} :
    (code_to_str code).isSome ↔ ∀ n, code ≠ .other n := by
  cases code <;> simp [code_to_str]

/-! ### The flags -/

theorem push_flag_mem {name : List Char} {code : Codes} {d : Bool} {flags : List (List Char)}
    (h : push_flag name code d = some flags) (hname : '|' ∉ name) :
    ∀ flag ∈ flags, '_' ∈ flag ∧ '|' ∉ flag := by
  intro flag hflag
  cases d with
  | true =>
    cases h
    cases hflag
  | false =>
    obtain ⟨s, hs, rfl⟩ := Option.map_eq_some_iff.1 h
    obtain rfl := List.mem_singleton.1 hflag
    simp [hname, (code_to_str_not_mem hs).2]

theorem push_flag_isSome {name : List Char} {code : Codes} {d : Bool} :
    (push_flag name code d).isSome ↔ d = true ∨ ∀ n, code ≠ .other n := by
  cases d with
  | true => simp [push_flag]
  | false => simpa [push_flag] using code_to_str_isSome

theorem compressionflags_eq (flags : List (List Char)) :
    compressionflags flags = ['|'].intercalate flags := by
  unfold compressionflags
  induction flags with
  | nil => rfl
  | cons flag flags ih =>
    cases flags with
    | nil => simp
    | cons flag' flags =>
      rw [List.flatMap_cons, List.dropLast_append_of_ne_nil (by simp), ih,
        List.intercalate_cons_cons, List.append_assoc]

theorem check_and_set_k_some (l : List Codes) (old_k : ℕ) :
    (l.foldlM check_and_set_k (some old_k)).isSome ↔ ∀ k, .zeta k ∈ l → old_k = k := by
  induction l with
  | nil => simp
  | cons c l ih =>
    rw [List.foldlM_cons]
    cases c with
    | zeta new_k =>
      by_cases hk : old_k = new_k
      · subst hk
        simpa [check_and_set_k] using ih
      · simp only [check_and_set_k, if_neg hk, List.mem_cons]
        exact iff_of_false (by simp) fun h => hk (h new_k (Or.inl rfl))
    | _ => simpa [check_and_set_k] using ih

theorem check_and_set_k_none (l : List Codes) :
    (l.foldlM check_and_set_k none).isSome ↔ ∀ k k', .zeta k ∈ l → .zeta k' ∈ l → k = k' := by
  induction l with
  | nil => simp
  | cons c l ih =>
    rw [List.foldlM_cons]
    cases c with
    | zeta new_k =>
      refine (check_and_set_k_some l new_k).trans ⟨fun h k k' hk hk' => ?_, fun h k hk =>
        h new_k k (List.mem_cons_self ..) (List.mem_cons_of_mem _ hk)⟩
      have heq : ∀ k, Codes.zeta k ∈ Codes.zeta new_k :: l → new_k = k := fun k hk => by
        obtain hk | hk := List.mem_cons.1 hk
        · exact (Codes.zeta.inj hk).symm
        · exact h k hk
      rw [← heq k hk, ← heq k' hk']
    | _ => simpa [check_and_set_k] using ih

/-! ### The file -/

section

variable [CodesEq]

/-- One flag, read by the branch `upd` for its name. -/
theorem foldlM_push_flag (cf : CompFlags) (upd : Codes → CompFlags) {name : List Char}
    {code default : Codes} {d : Bool} {flags : List (List Char)}
    (h : push_flag name code d = some flags) (hd : upd default = cf)
    (hset : ∀ c, set_code cf c name = some (upd c)) (hname : '_' ∉ name) :
    flags.foldlM (set_flag 3) cf = some (upd (if d then default else reread_code code)) := by
  cases d with
  | true =>
    cases h
    rw [if_pos rfl, hd]
    rfl
  | false =>
    obtain ⟨s, hs, rfl⟩ := Option.map_eq_some_iff.1 h
    have hsplit : (name ++ '_' :: s).splitOn '_' = [name, s] := by
      have : (['_'].intercalate [name, s]).splitOn '_' = [name, s] :=
        List.splitOn_intercalate '_' (by simp [hname, (code_to_str_not_mem hs).1]) (by simp)
      rwa [List.intercalate_cons_cons, List.intercalate_singleton, List.append_assoc,
        List.singleton_append] at this
    simp [set_flag, hsplit, code_from_to_str hs, hset]

theorem foldlM_append_some {flags flags' : List (List Char)} {cf cf₁ cf₂ : CompFlags}
    (h : flags.foldlM (set_flag 3) cf = some cf₁) (h' : flags'.foldlM (set_flag 3) cf₁ = some cf₂) :
    (flags ++ flags').foldlM (set_flag 3) cf = some cf₂ := by
  rw [List.foldlM_append, h]
  exact h'

/-- All flags, read into the default ones. -/
theorem foldlM_push_flags {cf : CompFlags} {flags : List (List Char)}
    (h : cf.push_flags = some flags) :
    flags.foldlM (set_flag 3) default =
      some { cf.reread with
        min_interval_length := 4
        compression_window := 7 } := by
  simp only [push_flags, Option.bind_eq_bind, Option.bind_eq_some_iff] at h
  obtain ⟨outdegrees, ho, references, hr, blocks, hb, intervals, hi, residuals, he, h⟩ := h
  cases h
  have hresiduals : reread_code cf.residuals =
      if is_zeta cf.residuals then default.residuals else reread_code cf.residuals := by
    cases cf.residuals <;> rfl
  have h₁ := foldlM_push_flag default (fun c => { default with outdegrees := c }) ho rfl
    (fun _ => rfl) (by decide)
  have h₂ := foldlM_push_flag { default with outdegrees := cf.reread.outdegrees }
    (fun c => { default with
      outdegrees := cf.reread.outdegrees
      references := c }) hr rfl (fun _ => rfl) (by decide)
  have h₃ := foldlM_push_flag { default with
      outdegrees := cf.reread.outdegrees
      references := cf.reread.references }
    (fun c => { default with
      outdegrees := cf.reread.outdegrees
      references := cf.reread.references
      blocks := c }) hb rfl (fun _ => rfl) (by decide)
  have h₄ := foldlM_push_flag { default with
      outdegrees := cf.reread.outdegrees
      references := cf.reread.references
      blocks := cf.reread.blocks }
    (fun c => { default with
      outdegrees := cf.reread.outdegrees
      references := cf.reread.references
      blocks := cf.reread.blocks
      intervals := c }) hi rfl (fun _ => rfl) (by decide)
  have h₅ := foldlM_push_flag { default with
      outdegrees := cf.reread.outdegrees
      references := cf.reread.references
      blocks := cf.reread.blocks
      intervals := cf.reread.intervals }
    (fun c => { default with
      outdegrees := cf.reread.outdegrees
      references := cf.reread.references
      blocks := cf.reread.blocks
      intervals := cf.reread.intervals
      residuals := c }) he rfl (fun _ => rfl) (by decide)
  rw [← hresiduals] at h₅
  exact foldlM_append_some
    (foldlM_append_some (foldlM_append_some (foldlM_append_some h₁ h₂) h₃) h₄) h₅

theorem push_flags_mem {cf : CompFlags} {flags : List (List Char)}
    (h : cf.push_flags = some flags) :
    ∀ flag ∈ flags, '_' ∈ flag ∧ '|' ∉ flag := by
  simp only [push_flags, Option.bind_eq_bind, Option.bind_eq_some_iff] at h
  obtain ⟨outdegrees, ho, references, hr, blocks, hb, intervals, hi, residuals, he, h⟩ := h
  cases h
  simp only [List.forall_mem_append]
  exact ⟨⟨⟨⟨push_flag_mem ho (by decide), push_flag_mem hr (by decide)⟩,
    push_flag_mem hb (by decide)⟩, push_flag_mem hi (by decide)⟩, push_flag_mem he (by decide)⟩

/-- The value of `compressionflags`, read back. -/
theorem read_codes_compressionflags {cf : CompFlags} {flags : List (List Char)}
    (h : cf.push_flags = some flags) :
    read_codes 3 (some (compressionflags flags)) =
      some { cf.reread with
        min_interval_length := 4
        compression_window := 7 } := by
  rw [← foldlM_push_flags h, compressionflags_eq, read_codes]
  by_cases hnil : flags = []
  · subst hnil
    rfl
  have hmem := push_flags_mem h
  have hsplit := List.splitOn_intercalate '|' (fun flag hflag => (hmem flag hflag).2) hnil
  rw [hsplit, if_neg]
  intro hempty
  -- no flag is the empty text
  rw [hempty, List.splitOn_nil] at hsplit
  have := (hmem [] (hsplit ▸ List.mem_singleton_self _)).1
  cases this

/-- The codes that have no flag where they are equal to the default, with the defaults. -/
def defaults (cf : CompFlags) : List (Codes × Codes) :=
  [(cf.outdegrees, .gamma), (cf.references, .unary), (cf.blocks, .gamma), (cf.intervals, .gamma)]

/-- Flags that a properties file can be written for. -/
structure Supported (cf : CompFlags) : Prop where
  named : ∀ p ∈ cf.defaults, CodesEq.eq p.1 p.2 = true ∨ ∀ n, p.1 ≠ .other n
  residuals : ∀ n, cf.residuals ≠ .other n
  same_k : ∀ k k', .zeta k ∈ cf.codes → .zeta k' ∈ cf.codes → k = k'

theorem push_flags_isSome (cf : CompFlags) :
    cf.push_flags.isSome ↔
      (∀ p ∈ cf.defaults, CodesEq.eq p.1 p.2 = true ∨ ∀ n, p.1 ≠ .other n) ∧
        ∀ n, cf.residuals ≠ .other n := by
  have hzeta : (is_zeta cf.residuals = true ∨ ∀ n, cf.residuals ≠ .other n) ↔
      ∀ n, cf.residuals ≠ .other n := by
    cases cf.residuals <;> simp [is_zeta]
  have hall : ∀ a b c d e : Option (List (List Char)),
      (a.bind fun a => b.bind fun b => c.bind fun c => d.bind fun d => e.bind fun e =>
        some (a ++ b ++ c ++ d ++ e)).isSome ↔
        a.isSome ∧ b.isSome ∧ c.isSome ∧ d.isSome ∧ e.isSome := by
    intro a b c d e
    cases a <;> cases b <;> cases c <;> cases d <;> cases e <;> simp
  refine (hall _ _ _ _ _).trans ?_
  rw [push_flag_isSome, push_flag_isSome, push_flag_isSome, push_flag_isSome, push_flag_isSome,
    hzeta]
  simp [defaults, and_assoc]

theorem to_properties_isSome (E : Endianness) (cf : CompFlags)
    (num_nodes num_arcs bitstream_len : ℕ) :
    (to_properties E cf num_nodes num_arcs bitstream_len).isSome ↔ cf.Supported := by
  have hboth : (to_properties E cf num_nodes num_arcs bitstream_len).isSome ↔
      cf.push_flags.isSome ∧ (cf.codes.foldlM check_and_set_k none).isSome := by
    rw [to_properties]
    cases cf.push_flags <;> cases cf.codes.foldlM check_and_set_k none <;> simp
  rw [hboth, push_flags_isSome, check_and_set_k_none]
  exact ⟨fun h => ⟨h.1.1, h.1.2, h.2⟩, fun h => ⟨⟨h.named, h.residuals⟩, h.same_k⟩⟩

/-- The map that is read from a file with these values. -/
theorem from_properties_eq (E E' : Endianness) {cf : CompFlags} {flags : List (List Char)}
    {map : String → Option (List Char)}
    (hw : cf.compression_window < 2 ^ 64) (hm : cf.min_interval_length < 2 ^ 64)
    (hflags : cf.push_flags = some flags) (hend : map "endianness" = some E.NAME)
    (hversion : map "version" = some (if E = .BE then "0".toList else "1".toList))
    (hzeta : map "zeta_k" = none)
    (hcomp : map "compressionflags" = some (compressionflags flags))
    (hwin : map "windowsize" = some (to_text cf.compression_window))
    (hmin : map "minintervallength" = some (to_text cf.min_interval_length)) :
    from_properties E' map = if E' = E then some cf.reread else none := by
  rw [from_properties, hend, hversion, hzeta, hcomp, hwin, hmin]
  simp only [Option.getD_some, Option.bind_some, Option.bind_eq_bind, parse_to_text hw,
    parse_to_text hm, read_codes_compressionflags hflags, Option.map_some]
  by_cases hE : E' = E
  · subst hE
    have hone : ¬(E' = .LE ∧
        parse_u64 (if E' = .BE then "0".toList else "1".toList) ≠ some 1) := by
      cases E' <;> decide
    rw [if_neg (not_not.2 rfl), if_neg hone, if_pos rfl]
    rfl
  · have hname : E.NAME ≠ E'.NAME := by
      cases E <;> cases E' <;> first | exact absurd rfl hE | decide
    rw [if_pos hname, if_neg hE]

theorem get_endianness_written {E : Endianness} {cf : CompFlags}
    {num_nodes num_arcs bitstream_len : ℕ} {lines : List (String × List Char)}
    (h : to_properties E cf num_nodes num_arcs bitstream_len = some lines) :
    get_endianness lines = some E := by
  simp only [to_properties, Option.bind_eq_bind, Option.bind_eq_some_iff] at h
  obtain ⟨flags, hflags, k, -, h⟩ := h
  have hend : get lines "endianness" = some E.NAME := by cases h; rfl
  rw [get_endianness, hend]
  cases E <;> rfl

/-- The lines of a file, read back. -/
theorem parse_properties_written (E E' : Endianness) {cf : CompFlags}
    {num_nodes num_arcs bitstream_len : ℕ} (hn : num_nodes < 2 ^ 64) (ha : num_arcs < 2 ^ 64)
    (hw : cf.compression_window < 2 ^ 64) (hm : cf.min_interval_length < 2 ^ 64)
    {lines : List (String × List Char)}
    (h : to_properties E cf num_nodes num_arcs bitstream_len = some lines) :
    parse_properties E' lines =
      if E' = E then some (num_nodes, num_arcs, cf.reread) else none := by
  simp only [to_properties, Option.bind_eq_bind, Option.bind_eq_some_iff] at h
  obtain ⟨flags, hflags, k, -, h⟩ := h
  -- what the file has for each key that is looked up
  have hnodes : get lines "nodes" = some (to_text num_nodes) := by cases h; rfl
  have harcs : get lines "arcs" = some (to_text num_arcs) := by cases h; rfl
  have hread : from_properties E' (get lines) = if E' = E then some cf.reread else none :=
    from_properties_eq E E' hw hm hflags (by cases h; rfl) (by cases h; rfl) (by cases h; rfl)
      (by cases h; rfl) (by cases h; rfl) (by cases h; rfl)
  rw [parse_properties, hnodes, harcs, hread]
  simp only [Option.bind_eq_bind, Option.bind_some, parse_to_text hn, parse_to_text ha]
  split <;> rfl

theorem reread_flag_eq_iff {code default : Codes} (hd : default = .gamma ∨ default = .unary) :
    reread_flag code default = code ↔
      (CodesEq.eq code default = true → code = default) ∧ ∀ k, code = .zeta k → k = 3 := by
  by_cases h : CodesEq.eq code default = true
  · rw [reread_flag, if_pos h]
    refine ⟨fun heq => ⟨fun _ => heq.symm, fun k hk => ?_⟩, fun heq => (heq.1 h).symm⟩
    obtain rfl | rfl := hd <;> cases heq.trans hk
  · rw [reread_flag, if_neg h, reread_code_eq_iff]
    simp [h]

theorem reread_eq_iff {cf : CompFlags} :
    cf.reread = cf ↔ cf.max_ref_count = 3 ∧ (∀ k, .zeta k ∈ cf.codes → k = 3) ∧
      ∀ p ∈ cf.defaults, CodesEq.eq p.1 p.2 = true → p.1 = p.2 := by
  have hcodes : (∀ k, .zeta k ∈ cf.codes → k = 3) ↔ ∀ code ∈ cf.codes, ∀ k, code = .zeta k → k = 3 :=
    ⟨fun h code hcode k hk => h k (hk ▸ hcode), fun h k hk => h _ hk k rfl⟩
  have hgamma : Codes.gamma = .gamma ∨ Codes.gamma = .unary := .inl rfl
  have hunary : Codes.unary = .gamma ∨ Codes.unary = .unary := .inr rfl
  rw [hcodes]
  obtain ⟨o, r, b, i, e, m, w, x⟩ := cf
  simp only [reread, codes, defaults, CompFlags.mk.injEq, List.forall_mem_cons, List.not_mem_nil,
    false_implies, implies_true, and_true, true_and, eq_comm (a := 3), reread_code_eq_iff,
    reread_flag_eq_iff hgamma, reread_flag_eq_iff hunary]
  tauto

/-- A plain code is read as it was written, but ζ as ζ₃. -/
theorem reread_flag_of_plain {code default : Codes} (h : code.Plain)
    (hd : default = .gamma ∨ default = .unary) : reread_flag code default = reread_code code := by
  have hplain : default.Plain := by
    obtain rfl | rfl := hd <;> exact trivial
  by_cases heq : CodesEq.eq code default = true
  · obtain rfl := (CodesEq.eq_iff h hplain).1 heq
    rw [reread_flag, if_pos heq]
    obtain rfl | rfl := hd <;> rfl
  · rw [reread_flag, if_neg heq]

theorem reread_codes {cf : CompFlags} (h : ∀ code ∈ cf.codes, code.Plain) :
    cf.reread.codes = cf.codes.map reread_code := by
  simp only [codes, List.forall_mem_cons] at h
  obtain ⟨ho, hr, hb, hi, -⟩ := h
  simp only [codes, reread, List.map_cons, List.map_nil, reread_flag_of_plain ho (.inl rfl),
    reread_flag_of_plain hr (.inr rfl), reread_flag_of_plain hb (.inl rfl),
    reread_flag_of_plain hi (.inl rfl)]

/-- **The properties file.**  Flags have one if every code is the default or has a name and all ζ
codes have one `k`.  It is read back for the endianness it was written for, with every plain ζ as ζ₃,
a code that is equal to the default as the default, and a largest count of references of `3`: the
flags themselves where they have these values. -/
theorem properties_round_trip (E E' : Endianness) (cf : CompFlags)
    (num_nodes num_arcs bitstream_len : ℕ) (hn : num_nodes < 2 ^ 64) (ha : num_arcs < 2 ^ 64)
    (hw : cf.compression_window < 2 ^ 64) (hm : cf.min_interval_length < 2 ^ 64) :
    (cf.Supported → ∃ lines, to_properties E cf num_nodes num_arcs bitstream_len = some lines ∧
      get_endianness lines = some E ∧
      parse_properties E' lines = if E' = E then some (num_nodes, num_arcs, cf.reread) else none) ∧
    (¬cf.Supported → to_properties E cf num_nodes num_arcs bitstream_len = none) ∧
    ((∀ code ∈ cf.codes, code.Plain) → cf.reread.codes = cf.codes.map reread_code) ∧
    (cf.reread = cf ↔ cf.max_ref_count = 3 ∧ (∀ k, .zeta k ∈ cf.codes → k = 3) ∧
      ∀ p ∈ cf.defaults, CodesEq.eq p.1 p.2 = true → p.1 = p.2) := by
  have hsome := to_properties_isSome E cf num_nodes num_arcs bitstream_len
  refine ⟨fun h => ?_, fun h => ?_, reread_codes, reread_eq_iff⟩
  · obtain ⟨lines, hlines⟩ := Option.isSome_iff_exists.1 (hsome.2 h)
    exact ⟨lines, hlines, get_endianness_written hlines,
      parse_properties_written E E' hn ha hw hm hlines⟩
  · rw [← Option.not_isSome_iff_eq_none, hsome]
    exact h

end

/-- ζ₁ as γ, and every other code as itself. -/
def gamma_for_zeta : Codes → Codes
  | .zeta 1 => .gamma
  | code => code

theorem gamma_for_zeta_of_plain {code : Codes} (h : code.Plain) : gamma_for_zeta code = code := by
  rw [gamma_for_zeta]
  rintro rfl
  exact absurd h (Nat.not_le.2 one_lt_two)

/-- Equality of the words. -/
abbrev words_eq : CodesEq where
  eq code code' := gamma_for_zeta code = gamma_for_zeta code'
  eq_iff h h' := by rw [decide_eq_true_iff, gamma_for_zeta_of_plain h, gamma_for_zeta_of_plain h']

attribute [local instance] words_eq in
/-- ζ₂ is written and ζ₃ is read, and γ for a ζ₁ in its place. -/
theorem properties_round_trip_zeta :
    let cf : CompFlags := { default with residuals := .zeta 2 }
    (cf.Supported → ∃ lines, to_properties .BE cf 3 4 17 = some lines ∧
      get_endianness lines = some .BE ∧
      parse_properties .BE lines = if Endianness.BE = .BE then some (3, 4, cf.reread) else none) ∧
    (¬cf.Supported → to_properties .BE cf 3 4 17 = none) ∧
    ((∀ code ∈ cf.codes, code.Plain) → cf.reread.codes = cf.codes.map reread_code) ∧
    (cf.reread = cf ↔ cf.max_ref_count = 3 ∧ (∀ k, .zeta k ∈ cf.codes → k = 3) ∧
      ∀ p ∈ cf.defaults, CodesEq.eq p.1 p.2 = true → p.1 = p.2) :=
  properties_round_trip .BE .BE _ 3 4 17 (by decide) (by decide) (by decide) (by decide)

end CompFlags

end Rbsc.BvGraph
