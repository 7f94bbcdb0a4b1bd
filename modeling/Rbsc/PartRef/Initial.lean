import Rbsc.PartRef.Touched

/-!
# The initial blocks

`split_according_initial_partition` sorts the states by the initial blocks that the input gives, and
opens a block at every border.  When the numbers of the input leave none out, the blocks are those
of the input (`split_according_initial_partition_ok`); when they do, there are fewer blocks than
announced (`nr_sets_eq_iff`).
-/

namespace Rbsc.PartRef

open Arrays ForLoop RefinablePartition

variable {n : ℕ} {sets elems : Arr ℕ}

/-- `elems` lists the states `1 … n` in the order of their numbers in `sets`. -/
structure SortedBy (n : ℕ) (sets elems : Arr ℕ) : Prop where
  elem : ∀ lc, Num n lc → Num n (elems lc)
  inj : ∀ i k, Num n i → Num n k → elems i = elems k → i = k
  surj : ∀ st, Num n st → ∃ lc, Num n lc ∧ elems lc = st
  mono : ∀ i k, Num n i → Num n k → i ≤ k → sets (elems i) ≤ sets (elems k)

/-- The states after the sort. -/
def initial_elems (n : ℕ) (sets : Arr ℕ) : Arr ℕ :=
  heapsort ((List.Ico 1 (n + 1)).foldl (fun elems st => elems.set st st) (.const 0)) 1 (n + 1) sets

theorem initial_elems_sorted (hlt : n < 2 ^ 31) (sets : Arr ℕ) :
    SortedBy n sets (initial_elems n sets) := by
  have hid : ∀ st, Num n st →
      (List.Ico 1 (n + 1)).foldl (fun (elems : Arr ℕ) st => elems.set st st) (.const 0) st = st := by
    intro st hst
    have := foldl_locs (a := id) (n := n) (fun _ _ _ _ h => h) le_rfl (by omega) le_rfl
      (.const 0) hst
    rwa [if_pos ⟨hst.1, by have := hst.2; omega⟩] at this
  unfold initial_elems
  generalize (List.Ico 1 (n + 1)).foldl (fun (elems : Arr ℕ) st => elems.set st st) (.const 0) = a
    at hid
  obtain ⟨hsort, σ, hσ, ha⟩ := heapsort_sorted (show 1 ≤ n + 1 by omega) hlt sets a
  generalize heapsort a 1 (n + 1) sets = elems at hsort ha
  -- the permutation keeps the numbers
  have hin := perm_mem_iff (P := Num n) (σ := σ) fun i hi => hσ i (by unfold Num at hi; omega)
  have helems : ∀ i, Num n i → elems i = σ i := fun i hi => by rw [ha, hid _ ((hin i).2 hi)]
  refine ⟨fun lc hlc => ?_, fun i k hi hk hik => ?_, fun st hst => ?_, fun i k hi hk hik => ?_⟩
  · rw [helems lc hlc]
    exact (hin lc).2 hlc
  · rw [helems i hi, helems k hk] at hik
    exact σ.injective hik
  · have hi : Num n (σ.symm st) := by
      rw [← hin, Equiv.apply_symm_apply]
      exact hst
    exact ⟨_, hi, by rw [helems _ hi, Equiv.apply_symm_apply]⟩
  · rcases Nat.eq_or_lt_of_le hik with rfl | hlt
    · exact le_rfl
    · exact hsort i k hi.1 hlt (Nat.lt_succ_of_le hk.2)

/-! ## The borders -/

/-- The numbers begin with one and leave none out, up to place `k`. -/
def Gapless (sets elems : Arr ℕ) (k : ℕ) : Prop :=
  sets (elems 1) = 1 ∧
    ∀ lc, 1 ≤ lc → lc < k → sets (elems (lc + 1)) ≤ sets (elems lc) + 1

/-- The variables before the loop over the borders. -/
def borders_init (sets elems : Arr ℕ) : Borders where
  nr_sets := 1
  bl1 := sets (elems 1)
  begins := (Arr.const 0).set 1 1
  ends := .const 0
  mids := (Arr.const 0).set 1 1

/-- The loop over the borders. -/
def borders (n : ℕ) (sets elems : Arr ℕ) : Borders :=
  (List.Ico 2 (n + 1)).foldl (border_step sets elems) (borders_init sets elems)

/-- The blocks up to place `k`, when no number is left out. -/
structure Bordered (sets elems : Arr ℕ) (k : ℕ) (b : Borders) : Prop where
  nr_sets : b.nr_sets = sets (elems k)
  begin_le : ∀ lc, Num k lc → b.begins (sets (elems lc)) ≤ lc
  block : ∀ bl, Num b.nr_sets bl →
    Num k (b.begins bl) ∧ sets (elems (b.begins bl)) = bl ∧ b.mids bl = b.begins bl
  last : ∀ bl, 1 ≤ bl → bl < b.nr_sets → b.ends bl = b.begins (bl + 1)

/-- The loop has gone over the places up to `k`. -/
structure BorderInv (sets elems : Arr ℕ) (k : ℕ) (b : Borders) : Prop where
  bl1 : b.bl1 = sets (elems k)
  /-- Every block has a number of its own. -/
  le : b.nr_sets ≤ sets (elems k)
  eq_iff : b.nr_sets = sets (elems k) ↔ Gapless sets elems k
  bordered : Gapless sets elems k → Bordered sets elems k b

theorem gapless_succ {k : ℕ} (hk : 1 ≤ k) : Gapless sets elems (k + 1) ↔
    Gapless sets elems k ∧ sets (elems (k + 1)) ≤ sets (elems k) + 1 := by
  constructor
  · rintro ⟨h1, h⟩
    exact ⟨⟨h1, fun lc hlc hlt => h lc hlc (by omega)⟩, h k hk (Nat.lt_succ_self k)⟩
  · rintro ⟨⟨h1, h⟩, hlast⟩
    refine ⟨h1, fun lc hlc hlt => ?_⟩
    rcases Nat.lt_succ_iff_lt_or_eq.1 hlt with hlt | rfl
    · exact h lc hlc hlt
    · exact hlast

theorem borderInv_init (hpos : 1 ≤ sets (elems 1)) :
    BorderInv sets elems 1 (borders_init sets elems) := by
  refine ⟨rfl, hpos, ⟨fun h => ⟨h.symm, fun lc h₁ h₂ => by omega⟩, fun h => h.1.symm⟩, fun h => ?_⟩
  refine ⟨h.1.symm, fun lc hlc => ?_, fun bl hbl => ?_, fun bl h₁ h₂ => ?_⟩
  · obtain rfl : lc = 1 := le_antisymm hlc.2 hlc.1
    rw [h.1]
    exact (Arr.set_self _ _ _).le
  · obtain rfl : bl = 1 := le_antisymm hbl.2 hbl.1
    have hb : (borders_init sets elems).begins 1 = 1 := Arr.set_self _ _ _
    rw [hb]
    exact ⟨⟨le_rfl, le_rfl⟩, h.1, Arr.set_self _ _ _⟩
  · have h₂ : bl < 1 := h₂
    omega

/-- A border. -/
theorem Bordered.next {k : ℕ} {b : Borders} (h : Bordered sets elems k b)
    (hmono : ∀ lc, Num k lc → sets (elems lc) ≤ sets (elems k))
    (hlast : sets (elems (k + 1)) = sets (elems k) + 1) (bl1 : ℕ) :
    Bordered sets elems (k + 1)
      { nr_sets := b.nr_sets + 1
        bl1 := bl1
        begins := b.begins.set (b.nr_sets + 1) (k + 1)
        ends := b.ends.set b.nr_sets (k + 1)
        mids := b.mids.set (b.nr_sets + 1) (k + 1) } := by
  have hnr := h.nr_sets
  refine ⟨by dsimp only; omega, fun lc hlc => ?_, fun bl hbl => ?_, fun bl h₁ h₂ => ?_⟩ <;>
    dsimp only at *
  · by_cases hlk : lc = k + 1
    · rw [hlk, hlast, ← hnr, Arr.set_self]
    · have hlc' : Num k lc := ⟨hlc.1, by have := hlc.2; omega⟩
      have := hmono lc hlc'
      rw [Arr.set_of_ne _ _ (by omega)]
      exact h.begin_le lc hlc'
  · by_cases hbn : bl = b.nr_sets + 1
    · rw [hbn, Arr.set_self, Arr.set_self]
      exact ⟨⟨by omega, le_rfl⟩, by omega, rfl⟩
    · rw [Arr.set_of_ne _ _ hbn, Arr.set_of_ne _ _ hbn]
      obtain ⟨⟨h₁, h₂⟩, hset, hmid⟩ := h.block bl ⟨hbl.1, by have := hbl.2; omega⟩
      exact ⟨⟨h₁, by omega⟩, hset, hmid⟩
  · by_cases hbn : bl = b.nr_sets
    · rw [hbn, Arr.set_self, Arr.set_self]
    · rw [Arr.set_of_ne _ _ hbn, Arr.set_of_ne _ _ (by omega)]
      exact h.last bl h₁ (by omega)

/-- A place that is no border. -/
theorem Bordered.same {k : ℕ} {b : Borders} (h : Bordered sets elems k b) (hk : 1 ≤ k)
    (hlast : sets (elems (k + 1)) = sets (elems k)) : Bordered sets elems (k + 1) b := by
  refine ⟨by rw [hlast]; exact h.nr_sets, fun lc hlc => ?_, fun bl hbl => ?_, h.last⟩
  · by_cases hlk : lc = k + 1
    · have := h.begin_le k ⟨hk, le_rfl⟩
      rw [hlk, hlast]
      omega
    · exact h.begin_le lc ⟨hlc.1, by have := hlc.2; omega⟩
  · obtain ⟨⟨h₁, h₂⟩, hset, hmid⟩ := h.block bl hbl
    exact ⟨⟨h₁, by omega⟩, hset, hmid⟩

/-- **One place.** -/
theorem BorderInv.next (hs : SortedBy n sets elems) {k : ℕ} {b : Borders} (hk : 1 ≤ k) (hkn : k < n)
    (h : BorderInv sets elems k b) :
    BorderInv sets elems (k + 1) (border_step sets elems b (k + 1)) := by
  have hle := hs.mono k (k + 1) ⟨hk, hkn.le⟩ ⟨by omega, hkn⟩ (Nat.le_succ k)
  have hnr := h.le
  have heq := h.eq_iff
  unfold border_step
  dsimp only
  rw [h.bl1]
  by_cases hne : sets (elems k) ≠ sets (elems (k + 1))
  · rw [if_pos hne]
    refine ⟨rfl, by dsimp only; omega, ?_, fun hg => ?_⟩
    · rw [gapless_succ hk, ← heq]
      dsimp only
      omega
    · rw [gapless_succ hk] at hg
      exact (h.bordered hg.1).next (fun lc hlc => hs.mono lc k ⟨hlc.1, by have := hlc.2; omega⟩
        ⟨hk, hkn.le⟩ hlc.2) (by omega) _
  · rw [if_neg hne]
    rw [not_not] at hne
    refine ⟨h.bl1.trans hne, by omega, ?_, fun hg => ?_⟩
    · rw [gapless_succ hk, ← heq]
      omega
    · rw [gapless_succ hk] at hg
      exact (h.bordered hg.1).same hk hne.symm

/-- **The loop over the borders.** -/
theorem borders_spec (hs : SortedBy n sets elems) (hn : 1 ≤ n) (hpos : 1 ≤ sets (elems 1)) :
    BorderInv sets elems n (borders n sets elems) := by
  have hloop := foldl_Ico (P := fun lc b => lc ≤ n + 1 → BorderInv sets elems (lc - 1) b)
    (show 2 ≤ n + 1 by omega) (f := border_step sets elems) (s := borders_init sets elems)
    (fun _ => borderInv_init hpos) fun lc b hlc hlt ih _ => by
      obtain ⟨k, rfl⟩ : ∃ k, lc = k + 1 := ⟨lc - 1, by omega⟩
      exact (ih (by omega)).next hs (by omega) (by omega)
  exact hloop le_rfl

/-! ## The initial partition -/

variable {K : ℕ}

theorem initial_borders (hn : 1 ≤ n) (hlt : n < 2 ^ 31)
    (hsets : ∀ st, Num n st → Num K (sets st)) :
    BorderInv sets (initial_elems n sets) n (borders n sets (initial_elems n sets)) := by
  have hs := initial_elems_sorted hlt sets
  exact borders_spec hs hn (hsets _ (hs.elem 1 ⟨le_rfl, hn⟩)).1

/-- **As many blocks as announced**: when every block of the input has a state. -/
theorem nr_sets_eq_iff (hn : 1 ≤ n) (hlt : n < 2 ^ 31)
    (hsets : ∀ st, Num n st → Num K (sets st)) :
    (split_according_initial_partition n sets).nr_sets = K ↔
      ∀ bl, Num K bl → ∃ st, Num n st ∧ sets st = bl := by
  have hinv := initial_borders hn hlt hsets
  have hs := initial_elems_sorted hlt sets
  change (borders n sets (initial_elems n sets)).nr_sets = K ↔ _
  generalize initial_elems n sets = elems at hinv hs
  have hrange : ∀ lc, Num n lc → Num K (sets (elems lc)) := fun lc hlc => hsets _ (hs.elem lc hlc)
  have hle := hinv.le
  have hlast := hrange n ⟨hn, le_rfl⟩
  constructor
  · intro hK bl hbl
    have hg := hinv.eq_iff.1 (le_antisymm hle (hK ▸ hlast.2))
    obtain ⟨hnum, hset, -⟩ := (hinv.bordered hg).block bl (hK ▸ hbl)
    exact ⟨_, hs.elem _ hnum, hset⟩
  · intro hall
    have hplace : ∀ bl, Num K bl → ∃ lc, Num n lc ∧ sets (elems lc) = bl := fun bl hbl => by
      obtain ⟨st, hst, hset⟩ := hall bl hbl
      obtain ⟨lc, hlc, rfl⟩ := hs.surj st hst
      exact ⟨lc, hlc, hset⟩
    have hK : sets (elems n) = K := by
      obtain ⟨lc, hlc, hset⟩ := hplace K ⟨hlast.1.trans hlast.2, le_rfl⟩
      have := hs.mono lc n hlc ⟨hn, le_rfl⟩ hlc.2
      exact le_antisymm hlast.2 (by omega)
    rw [← hK, hinv.eq_iff]
    constructor
    · obtain ⟨lc, hlc, hset⟩ := hplace 1 ⟨le_rfl, hlast.1.trans hlast.2⟩
      have := hs.mono 1 lc ⟨le_rfl, hn⟩ hlc hlc.1
      have := (hrange 1 ⟨le_rfl, hn⟩).1
      omega
    · -- a number in a gap would be that of a block without states
      intro lc h₁ h₂
      by_contra hgap
      have hnext := hrange (lc + 1) ⟨by omega, h₂⟩
      obtain ⟨p, hp, hset⟩ := hplace (sets (elems lc) + 1) ⟨by omega, by have := hnext.2; omega⟩
      by_cases hpl : p ≤ lc
      · have := hs.mono p lc hp ⟨h₁, by omega⟩ hpl
        omega
      · have := hs.mono (lc + 1) p ⟨by omega, h₂⟩ hp (by omega)
        omega

/-- The segment of a block holds its states. -/
theorem Bordered.segment_iff (hs : SortedBy n sets elems) {b : Borders}
    (h : Bordered sets elems n b) {bl lc : ℕ} (hbl : Num b.nr_sets bl) (hlc : Num n lc) :
    sets (elems lc) = bl ↔
      b.begins bl ≤ lc ∧ lc < b.ends.set b.nr_sets (n + 1) bl := by
  obtain ⟨hbegin, hset, -⟩ := h.block bl hbl
  have hlast := hs.mono lc n hlc ⟨hlc.1.trans hlc.2, le_rfl⟩ hlc.2
  have hnr := h.nr_sets
  by_cases hbn : bl = b.nr_sets
  · rw [hbn, Arr.set_self]
    rw [hbn] at hbegin hset
    constructor
    · intro heq
      exact ⟨heq ▸ h.begin_le lc hlc, Nat.lt_succ_of_le hlc.2⟩
    · rintro ⟨hle, -⟩
      have := hs.mono _ lc hbegin hlc hle
      omega
  · have hnext : Num b.nr_sets (bl + 1) := ⟨by omega, by have := hbl.2; omega⟩
    obtain ⟨hbegin', hset', -⟩ := h.block (bl + 1) hnext
    rw [Arr.set_of_ne _ _ hbn, h.last bl hbl.1 (by have := hbl.2; omega)]
    constructor
    · intro heq
      refine ⟨heq ▸ h.begin_le lc hlc, ?_⟩
      by_contra hle
      have := hs.mono _ lc hbegin' hlc (not_lt.1 hle)
      omega
    · rintro ⟨hle, hlt⟩
      have h₁ := hs.mono _ lc hbegin hlc hle
      have h₂ := hs.mono lc _ hlc hbegin' hlt.le
      by_contra hne
      -- the place would begin the next block
      have h₃ : sets (elems lc) = bl + 1 := by omega
      have := h.begin_le lc hlc
      rw [h₃] at this
      omega

/-- The partition with these borders. -/
def of_borders (n : ℕ) (sets elems : Arr ℕ) (b : Borders) : RefinablePartition where
  nr_sets := b.nr_sets
  elems := elems
  locs := (List.Ico 1 (n + 1)).foldl (fun locs lc => locs.set (elems lc) lc) (.const 0)
  sets := sets
  begins := b.begins
  ends := b.ends.set b.nr_sets (n + 1)
  mids := b.mids

theorem of_borders_locs (hs : SortedBy n sets elems) (b : Borders) {lc : ℕ} (hlc : Num n lc) :
    (of_borders n sets elems b).locs (elems lc) = lc := by
  have hloop := foldl_locs hs.inj le_rfl (by omega) le_rfl (.const 0) hlc
  rwa [if_pos ⟨hlc.1, by have := hlc.2; omega⟩] at hloop

/-- A block is not empty, and ends behind the last place at most. -/
theorem Bordered.ends (hs : SortedBy n sets elems) {b : Borders} (h : Bordered sets elems n b)
    {bl : ℕ} (hbl : Num b.nr_sets bl) :
    b.begins bl < b.ends.set b.nr_sets (n + 1) bl ∧ b.ends.set b.nr_sets (n + 1) bl ≤ n + 1 := by
  obtain ⟨hbegin, hset, -⟩ := h.block bl hbl
  refine ⟨((h.segment_iff hs hbl hbegin).1 hset).2, ?_⟩
  by_cases hbn : bl = b.nr_sets
  · rw [hbn, Arr.set_self]
  · have hle : bl ≤ b.nr_sets := hbl.2
    have hnext := (h.block (bl + 1) ⟨by omega, by omega⟩).1
    rw [Arr.set_of_ne _ _ hbn, h.last bl hbl.1 (by omega)]
    exact hnext.2.trans (Nat.le_succ n)

theorem Bordered.ok (hlt : n < 2 ^ 31) (hs : SortedBy n sets elems) {b : Borders}
    (h : Bordered sets elems n b) (hsets : ∀ st, Num n st → Num b.nr_sets (sets st)) : Ok n (of_borders n sets elems b) where
  size := hlt
  elem := hs.elem
  loc st hst := by
    obtain ⟨lc, hlc, rfl⟩ := hs.surj st hst
    rw [of_borders_locs hs b hlc]
    exact hlc
  locs_elems lc hlc := of_borders_locs hs b hlc
  elems_locs st hst := by
    obtain ⟨lc, hlc, rfl⟩ := hs.surj st hst
    rw [of_borders_locs hs b hlc]
    rfl
  set := hsets
  mem_iff st bl hst hbl := by
    obtain ⟨lc, hlc, rfl⟩ := hs.surj st hst
    rw [of_borders_locs hs b hlc]
    exact h.segment_iff hs hbl hlc
  segment bl hbl := ⟨(h.block bl hbl).1.1, h.ends hs hbl⟩
  mid bl hbl := by
    have hmid : (of_borders n sets elems b).mids bl = (of_borders n sets elems b).begins bl :=
      (h.block bl hbl).2.2
    rw [hmid]
    exact ⟨le_rfl, (h.ends hs hbl).1.le⟩

/-- **The blocks are those of the input**, when there are as many as announced. -/
theorem split_according_initial_partition_ok (hn : 1 ≤ n) (hlt : n < 2 ^ 31)
    (hsets : ∀ st, Num n st → Num K (sets st))
    (hK : (split_according_initial_partition n sets).nr_sets = K) :
    Ok n (split_according_initial_partition n sets) ∧
      ∀ c, Num K c → Clean (split_according_initial_partition n sets) c := by
  have hinv := initial_borders hn hlt hsets
  have hs := initial_elems_sorted hlt sets
  have hnr : (borders n sets (initial_elems n sets)).nr_sets = K := hK
  have hlast := (hsets _ (hs.elem n ⟨hn, le_rfl⟩)).2
  have hbor := hinv.bordered (hinv.eq_iff.1 (le_antisymm hinv.le (hnr ▸ hlast)))
  exact ⟨hbor.ok hlt hs (hnr.symm ▸ hsets), fun c hc => (hbor.block c (hnr ▸ hc)).2.2⟩

end Rbsc.PartRef
