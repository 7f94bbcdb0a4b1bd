import Rbsc.Gpu.Pass

/-!
# The retry loop

The loop that hashes the labels again until there are as many hashes as labels leaves after its
first turn, because `randomize` is a bijection of the words, exactly when the grid of the node
kernels fits (`retry_once_iff`).  With a grid that has wrapped nothing is counted, and the loop does
not end.

* `Dense`: the labels of an array are the numbers below `m`;
* `LeavesAtOnce`: the loop counts `m` hashes in its first turn and leaves.
-/

namespace Rbsc

theorem randomize_bijective : Function.Bijective randomize :=
  Finite.injective_iff_bijective.1 randomize_injective

namespace Gpu

open Arrays DenseRank DoWhile

/-- The first `n` labels are exactly `0, …, m - 1`. -/
def Dense (n m : ℕ) (z : Arr Word) : Prop := keys (fun v => (z v).toNat) n = Finset.range m

/-- The first turn of the retry loop counts `m` hashes, and is the last one. -/
def LeavesAtOnce (cub : Cub) (n m : ℕ) (r : Retry) : Prop :=
  ∃ r', retry_body cub n r = some r' ∧ r'.w_unique_n = m ∧
    ∀ fuel, retry cub n m (fuel + 1) r = some r'

variable {cub : Cub} {n m : ℕ} {r : Retry}

theorem Dense.keyCount (h : Dense n m r.dev.d_z) :
    keyCount (fun v => (r.dev.d_z v).toNat) n = m := by
  unfold DenseRank.keyCount
  rw [show keys (fun v => (r.dev.d_z v).toNat) n = Finset.range m from h, Finset.card_range]

/-- There are as many hashes as labels. -/
theorem Dense.card_hashes {z : Arr Word} (h : Dense n m z) (it : Word) :
    ((Finset.range n).image fun v => randomize (z v + it)).card = m := by
  have himg : (Finset.range n).image (fun v => randomize (z v + it)) =
      ((Finset.range n).image fun v => (z v).toNat).image fun l =>
        randomize (BitVec.ofNat 64 l + it) := by
    rw [Finset.image_image]
    refine Finset.image_congr fun v _ => ?_
    simp
  have hkeys : (Finset.range n).image (fun v => (z v).toNat) = Finset.range m := h
  rw [himg, Finset.card_image_of_injOn, hkeys, Finset.card_range]
  intro l hl l' hl' heq
  obtain ⟨v, -, rfl⟩ := Finset.mem_image.1 hl
  obtain ⟨v', -, rfl⟩ := Finset.mem_image.1 hl'
  have := randomize_add_injective it heq
  rw [BitVec.ofNat_toNat, BitVec.ofNat_toNat] at this
  simpa using congrArg BitVec.toNat this

/-- With zero blocks the loop waits for ever, unless it waits for `0`. -/
theorem retry_none_of_wrapped (hn : n < 2 ^ 32) (hw : ¬ GridFits n) (hm : m ≠ 0) (fuel : ℕ) :
    retry cub n m fuel r = none := by
  rw [Option.eq_none_iff_forall_ne_some]
  intro t ht
  obtain ⟨k, -, s, -, hb, ha⟩ := doWhile_eq_some_iff.1 ht
  rw [retry_wrapped hn hw hb] at ha
  simp [hm] at ha

/-- **When the retry loop leaves after its first turn.**  The hashes of dense labels are as many as
the labels, for every `it`; the loop counts them all in its first turn exactly when the grid of the
node kernels fits. -/
theorem retry_once_iff (cub : Cub) (n m : ℕ) (r : Retry) (hn : n < 2 ^ 32)
    (hz : Dense n m r.dev.d_z) :
    Function.Bijective randomize ∧
      (∀ it, ((Finset.range n).image fun v => randomize (r.dev.d_z v + it)).card = m) ∧
        (LeavesAtOnce cub n m r ↔ GridFits n) := by
  refine ⟨randomize_bijective, hz.card_hashes, fun h => ?_, fun hfit => ?_⟩
  · by_contra hw
    obtain ⟨r', hb, hcount, -⟩ := h
    rw [retry_wrapped hn hw hb] at hcount
    have hpos : 0 < n := by
      unfold GridFits at hw
      have : THREAD_N = 256 := rfl
      omega
    -- node `0` has a label, so there is at least one
    have hmem : (r.dev.d_z 0).toNat ∈ keys (fun v => (r.dev.d_z v).toNat) n := key_mem_keys hpos
    rw [show keys (fun v => (r.dev.d_z v).toNat) n = Finset.range m from hz, ← hcount] at hmem
    simp at hmem
  · obtain ⟨r', hb⟩ : ∃ r', retry_body cub n r = some r' := ⟨_, rfl⟩
    have hcount : r'.w_unique_n = m := by
      rcases Nat.eq_zero_or_pos n with rfl | hpos
      · cases hb
        rw [← hz.keyCount]
        rfl
      · rw [retry_body_count cub hfit hpos hb, hz.keyCount]
    exact ⟨r', hb, hcount, fun fuel => hcount ▸ retry_of_count cub hb fuel⟩

/-- Before the retry loop, with zeros on the device. -/
def zeroRetry : Retry where
  dev :=
    { d_w := .const 0
      d_z := .const 0
      d_buffer := .const 0
      d_indexes := .const 0
      d_sorted_indexes := .const 0
      d_truths := .const 0
      d_cumsum := .const 0 }
  it := 0
  w_unique_n := 0

theorem dense_zero (hn : 0 < n) : Dense n 1 zeroRetry.dev.d_z := by
  ext l
  rw [mem_keys, Finset.mem_range, Nat.lt_one_iff]
  constructor
  · rintro ⟨v, -, rfl⟩
    rfl
  · rintro rfl
    exact ⟨0, hn, rfl⟩

/-- Five nodes with the labels `2`, `0`, `1`, `0` and `2`. -/
def labelledRetry : Retry :=
  { zeroRetry with
    dev := { zeroRetry.dev with d_z := ((((Arr.const 0).set 0 2).set 2 1).set 4 2) }
    it := 7 }

theorem retry_once_iff_labelledRetry :
    Dense 5 3 labelledRetry.dev.d_z ∧ Function.Bijective randomize ∧
      (∀ it, ((Finset.range 5).image fun v => randomize (labelledRetry.dev.d_z v + it)).card = 3) ∧
        (LeavesAtOnce Cub.reference 5 3 labelledRetry ↔ GridFits 5) := by
  have hdense : Dense 5 3 labelledRetry.dev.d_z := by
    unfold Dense
    decide
  exact ⟨hdense, retry_once_iff Cub.reference 5 3 labelledRetry (by decide) hdense⟩

/-- On `2 ^ 32 - 255` nodes with one label the loop does not end. -/
theorem retry_never_leaves : Dense (2 ^ 32 - 255) 1 zeroRetry.dev.d_z ∧
    (∀ fuel, retry Cub.reference (2 ^ 32 - 255) 1 fuel zeroRetry = none) ∧
      ¬ LeavesAtOnce Cub.reference (2 ^ 32 - 255) 1 zeroRetry := by
  have hnone : ∀ fuel, retry Cub.reference (2 ^ 32 - 255) 1 fuel zeroRetry = none :=
    retry_none_of_wrapped (by decide) (by decide) one_ne_zero
  refine ⟨dense_zero (by decide), hnone, ?_⟩
  rintro ⟨r', -, -, hret⟩
  have := hret 0
  rw [hnone] at this
  cases this

end Gpu

end Rbsc
