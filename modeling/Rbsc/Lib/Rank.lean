import Rbsc.Lib.Arrays

/-!
# Dense ranks

The rank of an index is the number of distinct keys below its own key.  Indices have the same rank
exactly when they have the same key, and the ranks are the numbers below the number of distinct
keys.  The program obtains them from a sorted rearrangement of the indices by counting the places
where the key changes (`rank_eq_changes`).

* `rank key n v`, `keyCount key n`: the rank of `v` among the first `n` indices, the number of keys;
* `changes a i`: the number of places below `i` where the sequence `a` changes;
* `rank_perm`, `keyCount_perm`: both commute with a renaming of the indices.
-/

namespace DenseRank

open Arrays

variable {κ : Type*} [LinearOrder κ] {key : ℕ → κ} {n : ℕ}

/-- The keys of the first `n` indices. -/
def keys (key : ℕ → κ) (n : ℕ) : Finset κ := (Finset.range n).image key

/-- The number of keys below the key of `v`. -/
def rank (key : ℕ → κ) (n v : ℕ) : ℕ := ((keys key n).filter (· < key v)).card

/-- The number of distinct keys. -/
def keyCount (key : ℕ → κ) (n : ℕ) : ℕ := (keys key n).card

theorem mem_keys {k : κ} : k ∈ keys key n ↔ ∃ i < n, key i = k := by simp [keys]

theorem key_mem_keys {v : ℕ} (hv : v < n) : key v ∈ keys key n := mem_keys.2 ⟨v, hv, rfl⟩

theorem rank_lt_rank {u v : ℕ} (hu : u < n) (h : key u < key v) : rank key n u < rank key n v := by
  refine Finset.card_lt_card ⟨fun k hk => ?_, fun hsub => ?_⟩
  · obtain ⟨hk, hku⟩ := Finset.mem_filter.1 hk
    exact Finset.mem_filter.2 ⟨hk, hku.trans h⟩
  · have := hsub (Finset.mem_filter.2 ⟨key_mem_keys hu, h⟩)
    exact lt_irrefl _ (Finset.mem_filter.1 this).2

theorem rank_congr_key {u v : ℕ} (h : key u = key v) : rank key n u = rank key n v := by
  rw [rank, rank, h]

theorem rank_eq_iff {u v : ℕ} (hu : u < n) (hv : v < n) :
    rank key n u = rank key n v ↔ key u = key v := by
  refine ⟨fun h => ?_, rank_congr_key⟩
  rcases lt_trichotomy (key u) (key v) with hlt | heq | hgt
  · have := rank_lt_rank hu hlt; omega
  · exact heq
  · have := rank_lt_rank hv hgt; omega

theorem rank_lt_iff {u v : ℕ} (hu : u < n) (hv : v < n) :
    rank key n u < rank key n v ↔ key u < key v := by
  refine ⟨fun h => ?_, rank_lt_rank hu⟩
  by_contra hno
  rcases (not_lt.1 hno).lt_or_eq with hlt | heq
  · have := rank_lt_rank hv hlt
    omega
  · have := rank_congr_key (n := n) heq
    omega

theorem rank_lt_keyCount {v : ℕ} (hv : v < n) : rank key n v < keyCount key n := by
  refine Finset.card_lt_card ⟨Finset.filter_subset _ _, fun hsub => ?_⟩
  exact lt_irrefl _ (Finset.mem_filter.1 (hsub (key_mem_keys hv))).2

theorem keyCount_le : keyCount key n ≤ n :=
  (Finset.card_image_le).trans (Finset.card_range n).le

/-- The ranks are dense: every number below the number of keys is one. -/
theorem exists_rank_eq {l : ℕ} (hl : l < keyCount key n) : ∃ v < n, rank key n v = l := by
  have himg : (Finset.range n).image (rank key n) = Finset.range (keyCount key n) := by
    refine Finset.eq_of_subset_of_card_le (fun r hr => ?_) ?_
    · obtain ⟨v, hv, rfl⟩ := Finset.mem_image.1 hr
      exact Finset.mem_range.2 (rank_lt_keyCount (Finset.mem_range.1 hv))
    · -- the rank tells the keys apart, so there are as many ranks as keys
      rw [Finset.card_range]
      have hf : ∀ k ∈ keys key n, ∃ v < n, key v = k := fun k hk => mem_keys.1 hk
      choose! f hf using hf
      refine Finset.card_le_card_of_injOn (fun k => rank key n (f k)) (fun k hk => ?_)
        fun k hk k' hk' h => ?_
      · exact Finset.mem_image_of_mem _ (Finset.mem_range.2 (hf k hk).1)
      · rw [← (hf k hk).2, ← (hf k' hk').2]
        exact (rank_eq_iff (hf k hk).1 (hf k' hk').1).1 h
  have := Finset.mem_range.2 hl
  rw [← himg] at this
  obtain ⟨v, hv, h⟩ := Finset.mem_image.1 this
  exact ⟨v, Finset.mem_range.1 hv, h⟩

/-! ## Renaming the indices -/

theorem keys_perm {key' : ℕ → κ} {σ : ℕ → ℕ} (hσ : IsPerm n σ)
    (h : ∀ v < n, key' (σ v) = key v) : keys key' n = keys key n := by
  ext k
  simp only [mem_keys]
  constructor
  · rintro ⟨i, hi, rfl⟩
    obtain ⟨v, hv, rfl⟩ := hσ.surj hi
    exact ⟨v, hv, (h v hv).symm⟩
  · rintro ⟨v, hv, rfl⟩
    exact ⟨σ v, hσ.maps v hv, h v hv⟩

theorem rank_perm {key' : ℕ → κ} {σ : ℕ → ℕ} (hσ : IsPerm n σ)
    (h : ∀ v < n, key' (σ v) = key v) {v : ℕ} (hv : v < n) :
    rank key' n (σ v) = rank key n v := by
  rw [rank, rank, keys_perm hσ h, h v hv]

theorem keyCount_perm {key' : ℕ → κ} {σ : ℕ → ℕ} (hσ : IsPerm n σ)
    (h : ∀ v < n, key' (σ v) = key v) : keyCount key' n = keyCount key n := by
  rw [keyCount, keyCount, keys_perm hσ h]

/-- Keys that are equal where other keys are equal are not more. -/
theorem keyCount_le_of_imp {κ' : Type*} [LinearOrder κ'] {key' : ℕ → κ'}
    (h : ∀ u < n, ∀ v < n, key u = key v → key' u = key' v) :
    keyCount key' n ≤ keyCount key n := by
  have hf : ∀ k ∈ keys key n, ∃ v < n, key v = k := fun k hk => mem_keys.1 hk
  choose! f hf using hf
  have hsub : keys key' n ⊆ (keys key n).image fun k => key' (f k) := fun k' hk' => by
    obtain ⟨v, hv, rfl⟩ := mem_keys.1 hk'
    have hkey : key v ∈ keys key n := key_mem_keys hv
    exact Finset.mem_image.2 ⟨key v, hkey, h _ (hf _ hkey).1 v hv (hf _ hkey).2⟩
  exact (Finset.card_le_card hsub).trans Finset.card_image_le

/-- Keys that tell the same indices apart are equally many. -/
theorem keyCount_eq_of_iff {κ' : Type*} [LinearOrder κ'] {key' : ℕ → κ'}
    (h : ∀ u < n, ∀ v < n, key u = key v ↔ key' u = key' v) :
    keyCount key' n = keyCount key n :=
  le_antisymm (keyCount_le_of_imp fun u hu v hv => (h u hu v hv).1)
    (keyCount_le_of_imp fun u hu v hv => (h u hu v hv).2)

/-! ## Counting the changes of a sorted sequence -/

/-- The number of places below `i` where the sequence changes. -/
def changes (a : ℕ → κ) : ℕ → ℕ
  | 0 => 0
  | i + 1 => changes a i + if a (i + 1) ≠ a i then 1 else 0

theorem changes_le (a : ℕ → κ) : ∀ i, changes a i ≤ i
  | 0 => le_rfl
  | i + 1 => by
    have := changes_le a i
    rw [changes]
    split_ifs <;> omega

/-- In a sorted sequence, the number of changes before a place is the rank of the place. -/
theorem rank_sorted {a : ℕ → κ} (ha : ∀ i j, i ≤ j → j < n → a i ≤ a j) :
    ∀ i < n, rank a n i = changes a i := by
  intro i
  induction i with
  | zero =>
    intro h0
    rw [changes, rank, Finset.card_eq_zero, Finset.filter_eq_empty_iff]
    intro k hk
    obtain ⟨j, hj, rfl⟩ := mem_keys.1 hk
    exact not_lt.2 (ha 0 j (by omega) hj)
  | succ i ih =>
    intro hi
    rw [changes, ← ih (by omega)]
    by_cases hne : a (i + 1) = a i
    · rw [if_neg (by simpa using hne), rank_congr_key hne, Nat.add_zero]
    · rw [if_pos hne]
      -- the only key between the two places is the one at `i`
      have hset : (keys a n).filter (· < a (i + 1)) =
          insert (a i) ((keys a n).filter (· < a i)) := by
        ext k
        simp only [Finset.mem_filter, Finset.mem_insert]
        constructor
        · rintro ⟨hk, hlt⟩
          obtain ⟨j, hj, rfl⟩ := mem_keys.1 hk
          have hji : j ≤ i := by
            by_contra hij
            exact absurd (ha (i + 1) j (by omega) hj) (not_le.2 hlt)
          rcases (ha j i hji (by omega)).lt_or_eq with h | h
          · exact Or.inr ⟨hk, h⟩
          · exact Or.inl h
        · have hlt : a i < a (i + 1) := lt_of_le_of_ne (ha i (i + 1) (by omega) hi) (Ne.symm hne)
          rintro (rfl | ⟨hk, h⟩)
          · exact ⟨key_mem_keys (by omega), hlt⟩
          · exact ⟨hk, h.trans hlt⟩
      rw [rank, hset, Finset.card_insert_of_notMem (by simp), rank]

theorem keyCount_sorted {a : ℕ → κ} (hn : 0 < n) (ha : ∀ i j, i ≤ j → j < n → a i ≤ a j) :
    keyCount a n = changes a (n - 1) + 1 := by
  rw [← rank_sorted ha (n - 1) (by omega)]
  -- the last key is the largest: all keys but it are below it
  have : keys a n = insert (a (n - 1)) ((keys a n).filter (· < a (n - 1))) := by
    ext k
    simp only [Finset.mem_insert, Finset.mem_filter]
    constructor
    · intro hk
      obtain ⟨j, hj, rfl⟩ := mem_keys.1 hk
      rcases (ha j (n - 1) (by omega) (by omega)).lt_or_eq with h | h
      · exact Or.inr ⟨hk, h⟩
      · exact Or.inl h
    · rintro (rfl | ⟨hk, -⟩)
      · exact key_mem_keys (by omega)
      · exact hk
  rw [keyCount, this, Finset.card_insert_of_notMem (by simp), rank]

/-- **Ranks from a sorted rearrangement.**  If `σ` lists the indices by increasing key, the rank of
the `i`-th of them is the number of changes before it. -/
theorem rank_eq_changes {σ : ℕ → ℕ} (hσ : IsPerm n σ)
    (hs : ∀ i j, i ≤ j → j < n → key (σ i) ≤ key (σ j)) {i : ℕ} (hi : i < n) :
    rank key n (σ i) = changes (fun i => key (σ i)) i := by
  rw [← rank_sorted (a := fun i => key (σ i)) hs i hi]
  exact rank_perm hσ (fun _ _ => rfl) hi

theorem keyCount_eq_changes {σ : ℕ → ℕ} (hσ : IsPerm n σ) (hn : 0 < n)
    (hs : ∀ i j, i ≤ j → j < n → key (σ i) ≤ key (σ j)) :
    keyCount key n = changes (fun i => key (σ i)) (n - 1) + 1 := by
  rw [← keyCount_sorted (a := fun i => key (σ i)) hn hs]
  exact keyCount_perm hσ fun _ _ => rfl

end DenseRank
