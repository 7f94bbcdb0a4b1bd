import Rbsc.Host.Wrap

/-!
# The classes of one pass

What one pass over a window computes, in the terms of the window only: the new labels are the
numbers below their count, in the order of the pairs of sum and old label (`PassClasses`).  A pass
computes them exactly when the grid of the node kernels fits (`pass_classes_iff`); with a grid that
has wrapped, a pass that returns has counted zero classes (`pass_wrapped`).
-/

namespace Rbsc.Host

open Arrays DoWhile DenseRank Gpu

/-- The sum of a node: over its edges of the window if it is in the batch, a constant of its kind if
it is not. -/
def windowSum (window : List Edge) (batch_mask : Arr Mask) (it : Word) (label : ℕ → Word) (v : ℕ) :
    Word :=
  match batch_mask v with
  | .OFF_BATCH => BitVec.allOnes 64
  | .DANGLING => 0
  | .IN_BATCH => hashSum window (fun y => randomize (label y + it)) v

/-- What a pass leaves, in terms of what it starts with. -/
structure PassClasses (n : ℕ) (window : List Edge) (batch_mask : Arr Mask) (r r' : Refine) :
    Prop where
  /-- The labels are the numbers below their count. -/
  lt : ∀ v < n, (r'.dev.d_w v).toNat < r'.new_z_unique_n
  onto : ∀ l < r'.new_z_unique_n, ∃ v < n, (r'.dev.d_w v).toNat = l
  /-- Nodes with one new label had the same sum and the same old label. -/
  eq_iff : ∀ u < n, ∀ v < n, r'.dev.d_w u = r'.dev.d_w v ↔
    windowSum window batch_mask r.it r.dev.d_w u = windowSum window batch_mask r.it r.dev.d_w v ∧
      r.dev.d_w u = r.dev.d_w v
  /-- The new labels are in the order of the sums, then of the old labels. -/
  lt_iff : ∀ u < n, ∀ v < n, r'.dev.d_w u < r'.dev.d_w v ↔
    windowSum window batch_mask r.it r.dev.d_w u < windowSum window batch_mask r.it r.dev.d_w v ∨
      windowSum window batch_mask r.it r.dev.d_w u = windowSum window batch_mask r.it r.dev.d_w v ∧
        r.dev.d_w u < r.dev.d_w v
  /-- The new labels have 32 bits. -/
  small : SmallLabels n r'.dev

section Pass

variable {cub : Cub} {n fuel : ℕ} {window : List Edge} {batch_mask : Arr Mask} {r r' : Refine}

/-- The patched sum is the sum of the node over the window. -/
theorem patched_eq (hfit : GridFits n) (hok : WindowOk n window batch_mask) {v : ℕ} (hv : v < n) :
    patched batch_mask (sums_of cub window r.it r.dev) v =
      windowSum window batch_mask r.it r.dev.d_w v := by
  unfold patched windowSum
  cases hm : batch_mask v with
  | OFF_BATCH => rfl
  | DANGLING => rfl
  | IN_BATCH => exact window_sums_apply cub hfit hok r.it r.dev ((hok.in_batch_iff v hv).1 hm)

/-- **A pass on a grid that fits.** -/
theorem passClasses_of_spec (hfit : GridFits n) (hok : WindowOk n window batch_mask)
    (h : PassSpec (sums_of cub window) n batch_mask r r') :
    PassClasses n window batch_mask r r' := by
  set key := passKey batch_mask (sums_of cub window r.it r.dev) with hkey
  have hlabel : ∀ v < n, (r'.dev.d_w v).toNat = rank key n v := fun v hv => by
    rw [h.d_w v hv, rank_toNat hfit _ hv]
  have hold : (sums_of cub window r.it r.dev).d_w = r.dev.d_w := (sums_of cub window).keeps _ _
  refine ⟨fun v hv => ?_, fun l hl => ?_, fun u hu v hv => ?_, fun u hu v hv => ?_, h.small hfit⟩
  · rw [hlabel v hv, h.new_z_unique_n]
    exact rank_lt_keyCount hv
  · rw [h.new_z_unique_n] at hl
    obtain ⟨v, hv, hvl⟩ := exists_rank_eq hl
    exact ⟨v, hv, (hlabel v hv).trans hvl⟩
  · rw [← BitVec.toNat_inj, hlabel u hu, hlabel v hv, rank_eq_iff hu hv, hkey, passKey_eq_iff,
      patched_eq hfit hok hu, patched_eq hfit hok hv, hold]
  · rw [BitVec.lt_def, hlabel u hu, hlabel v hv, rank_lt_iff hu hv, hkey, passKey, passKey,
      Prod.Lex.toLex_lt_toLex, patched_eq hfit hok hu, patched_eq hfit hok hv, hold,
      BitVec.toNat_inj]
    rfl

/-- With zero blocks, a pass that returns has counted zero classes. -/
theorem pass_wrapped {sums : Sums} (hn : n + 1 < 2 ^ 32) (hw : ¬ GridFits n)
    (h : pass cub sums n batch_mask fuel r = some r') : r'.new_z_unique_n = 0 := by
  obtain ⟨t, ht, rfl⟩ := Option.map_eq_some_iff.1 h
  obtain ⟨k, -, t₀, -, hb, ha⟩ := doWhile_eq_some_iff.1 ht
  rw [retry_wrapped (Nat.lt_of_succ_lt hn) hw hb] at ha
  simpa using ha

end Pass

/-- The variables before a first pass, from the device `d`. -/
def firstPass (d : Device) : Refine := { dev := d, it := 0, z_unique_n := 1, new_z_unique_n := 1 }

theorem smallLabels_zero {n : ℕ} {d : Device} (h : d.d_w = .const 0) : SmallLabels n d :=
  fun v _ => by
    rw [h]
    exact (show (0 : Word).toNat < 2 ^ 32 by decide)

/-- **When a pass computes the classes.**  It returns, and what it returns are the classes of sum and
old label, exactly when the grid of the node kernels fits. -/
theorem pass_classes_iff (cub : Cub) (n : ℕ) (window : List Edge) (batch_mask : Arr Mask)
    (r : Refine) (h0 : 0 < n) (hn : n + 1 < 2 ^ 32) (hok : WindowOk n window batch_mask)
    (hw : SmallLabels n r.dev) :
    (∃ fuel r', pass cub (sums_of cub window) n batch_mask fuel r = some r') ∧
        (∀ fuel r', pass cub (sums_of cub window) n batch_mask fuel r = some r' →
          PassClasses n window batch_mask r r') ↔ GridFits n := by
  constructor
  · rintro ⟨⟨fuel, r', hr'⟩, hall⟩
    by_contra hfit
    have hlt := (hall fuel r' hr').lt 0 h0
    rw [pass_wrapped hn hfit hr'] at hlt
    exact Nat.not_lt_zero _ hlt
  · intro hfit
    obtain ⟨r', hr', -⟩ := pass_returns cub (sums_of cub window) hfit h0 batch_mask 0 hw
    exact ⟨⟨1, r', hr'⟩, fun fuel r' h =>
      passClasses_of_spec hfit hok (PassSpec.of_pass hfit h0 hw h)⟩

theorem pass_classes_iff_pairGraph :
    (∃ fuel r', pass Cub.reference (sums_of Cub.reference pairGraph.edges) 2 (.const .IN_BATCH) fuel
        (firstPass zeroDevice) = some r') ∧
      (∀ fuel r', pass Cub.reference (sums_of Cub.reference pairGraph.edges) 2 (.const .IN_BATCH)
        fuel (firstPass zeroDevice) = some r' →
          PassClasses 2 pairGraph.edges (.const .IN_BATCH) (firstPass zeroDevice) r') ↔
      GridFits 2 :=
  pass_classes_iff Cub.reference 2 pairGraph.edges (.const .IN_BATCH) (firstPass zeroDevice)
    (by decide) (by decide) ⟨by decide, by decide, by decide⟩ (smallLabels_zero rfl)

/-- **A pass that returns without classes**: node `0` gets label `0`, and there are zero labels. -/
theorem wrapped_not_classes : ∃ batch_mask, wideGraph.node_n + 1 < 2 ^ 32 ∧
    WindowOk wideGraph.node_n wideGraph.edges batch_mask ∧
    SmallLabels wideGraph.node_n (firstPass leftDevice).dev ∧
    ∃ r', pass Cub.reference (sums_of Cub.reference wideGraph.edges) wideGraph.node_n batch_mask 1
        (firstPass leftDevice) = some r' ∧
      ¬ PassClasses wideGraph.node_n wideGraph.edges batch_mask (firstPass leftDevice) r' := by
  have hn : wideGraph.node_n + 1 < 2 ^ 32 := by decide
  have h0 : 0 < wideGraph.node_n := by decide
  have hw : ¬ GridFits wideGraph.node_n := by decide
  have hok : WindowOk wideGraph.node_n wideGraph.edges ((Arr.const .DANGLING).set 0 .IN_BATCH) := by
    refine ⟨by decide, by decide, fun v _ => ?_⟩
    rw [Arr.set_apply]
    by_cases hv : v = 0
    · rw [if_pos hv, hv]
      decide
    · rw [if_neg hv]
      apply iff_of_false (show Mask.DANGLING ≠ Mask.IN_BATCH by decide)
      rintro ⟨e, he, hev⟩
      rw [List.mem_singleton.1 he] at hev
      exact hv hev.symm
  obtain ⟨r', hr', -, -, hcount⟩ := pass_held Cub.reference (sums_of Cub.reference wideGraph.edges)
    ((Arr.const .DANGLING).set 0 .IN_BATCH) 0 (r := firstPass leftDevice) hn h0 hw
    (blank_leftDevice h0)
  refine ⟨_, hn, hok, smallLabels_zero rfl, r', hr', fun hc => ?_⟩
  have hlt := hc.lt 0 h0
  rw [hcount] at hlt
  exact Nat.not_lt_zero _ hlt

end Rbsc.Host
