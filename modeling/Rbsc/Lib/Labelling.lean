import Rbsc.Lib.Rank

/-!
# Handing out labels

Indices below `n` get labels one after another: an index whose key has a label gets that label, any
other a new one, the next number.  Throughout, the labels in use are the numbers below their count,
and two labelled indices have one label exactly when they have one key; the unlabelled indices hold
the sentinel `n`, which is never a label.

* `Labelled n key S w m`: the indices in `S` are labelled, with `m` labels;
* `Entry n key S w k x`: `x` is what a table of labels holds for the key `k`;
* `Labelled.step`, `Entry.step_self`, `Entry.step_of_ne`: one more index;
* `foldl_insert`: a loop that takes some of the indices.
-/

namespace Labelling

open Arrays DenseRank

variable {κ : Type*}

/-- The indices in `S` are labelled by their keys, with `m` labels. -/
structure Labelled (n : ℕ) (key : ℕ → κ) (S : Set ℕ) (w : Arr ℕ) (m : ℕ) : Prop where
  /-- Only indices below `n` are labelled. -/
  mem_lt : ∀ v ∈ S, v < n
  /-- The others hold the sentinel. -/
  fresh : ∀ v < n, v ∉ S → w v = n
  /-- The labels are below `m`. -/
  lt : ∀ v ∈ S, w v < m
  /-- Labels are the same for the same keys. -/
  eq_iff : ∀ u ∈ S, ∀ v ∈ S, w u = w v ↔ key u = key v
  /-- Every number below `m` is a label. -/
  onto : ∀ l < m, ∃ v ∈ S, w v = l

/-- What a table of labels holds for the key `k`: its label, or the sentinel. -/
def Entry (n : ℕ) (key : ℕ → κ) (S : Set ℕ) (w : Arr ℕ) (k : κ) (x : ℕ) : Prop :=
  (∃ v ∈ S, key v = k ∧ w v = x) ∨ x = n ∧ ∀ v ∈ S, key v ≠ k

variable {n m x v : ℕ} {key : ℕ → κ} {S : Set ℕ} {w : Arr ℕ} {k : κ}

/-- Before the first index. -/
theorem Labelled.empty (hw : ∀ v < n, w v = n) : Labelled n key ∅ w 0 :=
  ⟨fun _ h => h.elim, fun v hv _ => hw v hv, fun _ h => h.elim, fun _ h => h.elim,
    fun l hl => by omega⟩

theorem Entry.empty (k : κ) : Entry n key ∅ w k n := Or.inr ⟨rfl, fun _ h => h.elim⟩

open Classical in
theorem Labelled.le_card (h : Labelled n key S w m) :
    m ≤ ((Finset.range n).filter (· ∈ S)).card := by
  have hsub : Finset.range m ⊆ ((Finset.range n).filter (· ∈ S)).image w := fun l hl => by
    obtain ⟨v, hv, hl⟩ := h.onto l (Finset.mem_range.1 hl)
    exact Finset.mem_image.2 ⟨v, Finset.mem_filter.2 ⟨Finset.mem_range.2 (h.mem_lt v hv), hv⟩, hl⟩
  calc m = (Finset.range m).card := (Finset.card_range m).symm
    _ ≤ _ := (Finset.card_le_card hsub).trans Finset.card_image_le

/-- There are no more labels than indices. -/
theorem Labelled.le (h : Labelled n key S w m) : m ≤ n := by
  classical
  exact h.le_card.trans ((Finset.card_filter_le _ _).trans (Finset.card_range n).le)

/-- A new label is below the sentinel. -/
theorem Labelled.lt_of_notMem (h : Labelled n key S w m) (hv : v < n) (hvS : v ∉ S) : m < n := by
  classical
  refine h.le_card.trans_lt ((Finset.card_lt_card ?_).trans_eq (Finset.card_range n))
  exact Finset.filter_ssubset.2 ⟨v, Finset.mem_range.2 hv, hvS⟩

/-- A table holds the sentinel exactly for the keys without a label. -/
theorem Labelled.entry_eq_iff (h : Labelled n key S w m) (hx : Entry n key S w k x) :
    x = n ↔ ∀ v ∈ S, key v ≠ k := by
  rcases hx with ⟨v, hv, hk, rfl⟩ | ⟨rfl, hno⟩
  · have h₁ := h.lt v hv
    have h₂ := h.le
    exact ⟨fun hn => by omega, fun hno => absurd hk (hno v hv)⟩
  · exact ⟨fun _ => hno, fun _ => rfl⟩

/-- A labelling depends on the keys of the labelled indices only. -/
theorem Labelled.congr_key {κ' : Type*} {key' : ℕ → κ'} (h : Labelled n key S w m)
    (hk : ∀ u ∈ S, ∀ v ∈ S, key u = key v ↔ key' u = key' v) : Labelled n key' S w m :=
  ⟨h.mem_lt, h.fresh, h.lt, fun u hu v hv => (h.eq_iff u hu v hv).trans (hk u hu v hv), h.onto⟩

/-- A labelling depends on the labels of the indices below `n` only. -/
theorem Labelled.congr_w {w' : Arr ℕ} (h : Labelled n key S w m) (hw : ∀ v < n, w' v = w v) :
    Labelled n key S w' m where
  mem_lt := h.mem_lt
  fresh v hv hvS := (hw v hv).trans (h.fresh v hv hvS)
  lt v hv := (hw v (h.mem_lt v hv)).trans_lt (h.lt v hv)
  eq_iff u hu v hv := by
    rw [hw u (h.mem_lt u hu), hw v (h.mem_lt v hv)]
    exact h.eq_iff u hu v hv
  onto l hl := by
    obtain ⟨v, hv, hvl⟩ := h.onto l hl
    exact ⟨v, hv, (hw v (h.mem_lt v hv)).trans hvl⟩

/-- The table too depends on the keys of the labelled indices only. -/
theorem Entry.congr_key {key' : ℕ → κ} (hk : ∀ v ∈ S, key' v = key v) (h : Entry n key S w k x) :
    Entry n key' S w k x := by
  rcases h with ⟨v, hv, hvk, hvx⟩ | ⟨hx, hno⟩
  · exact Or.inl ⟨v, hv, (hk v hv).trans hvk, hvx⟩
  · exact Or.inr ⟨hx, fun v hv hvk => hno v hv ((hk v hv).symm.trans hvk)⟩

section Step

variable (h : Labelled n key S w m) (hv : v < n) (hvS : v ∉ S) (hx : Entry n key S w (key v) x)

include h hv hvS hx

/-- **One more index.** -/
theorem Labelled.step :
    Labelled n key (insert v S) (w.set v (if x = n then m else x)) (if x = n then m + 1 else m) := by
  have hne : ∀ u ∈ S, u ≠ v := fun u hu huv => hvS (huv ▸ hu)
  have hmem : ∀ u ∈ insert v S, u < n := fun u hu => by
    rcases hu with rfl | hu
    · exact hv
    · exact h.mem_lt u hu
  have hfresh : ∀ y, ∀ u < n, u ∉ insert v S → w.set v y u = n := fun y u hu huS => by
    rw [Arr.set_of_ne _ _ fun huv => huS (Or.inl huv)]
    exact h.fresh u hu fun huS' => huS (Or.inr huS')
  by_cases hxn : x = n
  · -- a new label
    have hno := (h.entry_eq_iff hx).1 hxn
    rw [if_pos hxn, if_pos hxn]
    refine ⟨hmem, hfresh m, fun u hu => ?_, fun u hu u' hu' => ?_, fun l hl => ?_⟩
    · rcases hu with rfl | hu
      · rw [Arr.set_self]; omega
      · rw [Arr.set_of_ne _ _ (hne u hu)]
        have := h.lt u hu
        omega
    · rcases hu with rfl | hu <;> rcases hu' with rfl | hu'
      · simp
      · rw [Arr.set_self, Arr.set_of_ne _ _ (hne u' hu')]
        have := h.lt u' hu'
        exact ⟨fun he => by omega, fun hk => absurd hk.symm (hno u' hu')⟩
      · rw [Arr.set_self, Arr.set_of_ne _ _ (hne u hu)]
        have := h.lt u hu
        exact ⟨fun he => by omega, fun hk => absurd hk (hno u hu)⟩
      · rw [Arr.set_of_ne _ _ (hne u hu), Arr.set_of_ne _ _ (hne u' hu')]
        exact h.eq_iff u hu u' hu'
    · rcases Nat.lt_succ_iff_lt_or_eq.1 hl with hl | rfl
      · obtain ⟨u, hu, hul⟩ := h.onto l hl
        exact ⟨u, Or.inr hu, by rw [Arr.set_of_ne _ _ (hne u hu), hul]⟩
      · exact ⟨v, Or.inl rfl, Arr.set_self _ _ _⟩
  · -- the label of an index with the same key
    rw [if_neg hxn, if_neg hxn]
    rcases hx with ⟨u₀, hu₀, hk₀, rfl⟩ | ⟨rfl, -⟩
    swap
    · exact absurd rfl hxn
    refine ⟨hmem, hfresh (w u₀), fun u hu => ?_, fun u hu u' hu' => ?_, fun l hl => ?_⟩
    · rcases hu with rfl | hu
      · rw [Arr.set_self]; exact h.lt u₀ hu₀
      · rw [Arr.set_of_ne _ _ (hne u hu)]; exact h.lt u hu
    · rcases hu with rfl | hu <;> rcases hu' with rfl | hu'
      · simp
      · rw [Arr.set_self, Arr.set_of_ne _ _ (hne u' hu'), ← hk₀]
        exact h.eq_iff u₀ hu₀ u' hu'
      · rw [Arr.set_self, Arr.set_of_ne _ _ (hne u hu), ← hk₀]
        exact h.eq_iff u hu u₀ hu₀
      · rw [Arr.set_of_ne _ _ (hne u hu), Arr.set_of_ne _ _ (hne u' hu')]
        exact h.eq_iff u hu u' hu'
    · obtain ⟨u, hu, hul⟩ := h.onto l hl
      exact ⟨u, Or.inr hu, by rw [Arr.set_of_ne _ _ (hne u hu), hul]⟩

omit h hv hvS hx in
/-- The table holds the label that the index got. -/
theorem Entry.step_self (y : ℕ) : Entry n key (insert v S) (w.set v y) (key v) y :=
  Or.inl ⟨v, Or.inl rfl, rfl, Arr.set_self _ _ _⟩

omit h hv hx in
/-- The other entries of the table stay. -/
theorem Entry.step_of_ne {y z : ℕ} (hk : key v ≠ k) (hz : Entry n key S w k z) :
    Entry n key (insert v S) (w.set v y) k z := by
  rcases hz with ⟨u, hu, huk, huz⟩ | ⟨rfl, hno⟩
  · have hne : u ≠ v := fun huv => hvS (huv ▸ hu)
    exact Or.inl ⟨u, Or.inr hu, huk, by rw [Arr.set_of_ne _ _ hne, huz]⟩
  · refine Or.inr ⟨rfl, fun u hu => ?_⟩
    rcases hu with rfl | hu
    · exact hk
    · exact hno u hu

end Step

/-- A labelling by the labels themselves: one more index, with a new label or an old one. -/
theorem Labelled.step_count (h : Labelled n w S w m) (hv : v < n) (hvS : v ∉ S)
    (hx : x = n ∨ x < m) :
    Labelled n (w.set v (if x = n then m else x)) (insert v S) (w.set v (if x = n then m else x))
      (if x = n then m + 1 else m) := by
  set w' := w.set v (if x = n then m else x) with hw'
  have hold : ∀ u ∈ S, w' u = w u := fun u hu => Arr.set_of_ne _ _ fun huv => hvS (huv ▸ hu)
  have hself : w' v = if x = n then m else x := Arr.set_self _ _ _
  have hkey : Labelled n w' S w m := h.congr_key fun u hu u' hu' => by rw [hold u hu, hold u' hu']
  apply hkey.step hv hvS
  by_cases hxn : x = n
  · refine Or.inr ⟨hxn, fun u hu => ?_⟩
    have hlt := h.lt u hu
    rw [hold u hu, hself, if_pos hxn]
    omega
  · obtain ⟨u, hu, hux⟩ := h.onto x (hx.resolve_left hxn)
    refine Or.inl ⟨u, hu, ?_, hux⟩
    rw [hold u hu, hself, if_neg hxn, hux]

/-! ## Loops over the indices -/

/-- **The rule for a loop over the indices** that takes those with `T`, one after another. -/
theorem foldl_insert {σ : Type*} {step : σ → ℕ → σ} {P : Set ℕ → σ → Prop} {T : ℕ → Prop} {s : σ}
    (h0 : P S s) (hdisj : ∀ i < n, T i → i ∉ S)
    (hskip : ∀ i < n, ¬ T i → ∀ S' s, S ⊆ S' → P S' s → P S' (step s i))
    (hstep : ∀ i < n, T i → ∀ S' s, i ∉ S' → P S' s → P (insert i S') (step s i)) :
    ∀ j ≤ n, P (S ∪ {v | v < j ∧ T v}) ((List.range j).foldl step s) := by
  intro j
  induction j with
  | zero =>
    intro _
    have hempty : S ∪ {v | v < 0 ∧ T v} = S := by simp
    rw [hempty]
    exact h0
  | succ j ih =>
    intro hj
    have ih := ih (by omega)
    rw [List.range_succ, List.foldl_append, List.foldl_cons, List.foldl_nil]
    by_cases hT : T j
    · have hset : S ∪ {v | v < j + 1 ∧ T v} = insert j (S ∪ {v | v < j ∧ T v}) := by
        ext v
        simp only [Set.mem_union, Set.mem_ofPred_eq, Set.mem_insert_iff, Nat.lt_succ_iff_lt_or_eq]
        constructor
        · rintro (hv | ⟨hv | rfl, hTv⟩)
          · exact Or.inr (Or.inl hv)
          · exact Or.inr (Or.inr ⟨hv, hTv⟩)
          · exact Or.inl rfl
        · rintro (rfl | hv | ⟨hv, hTv⟩)
          · exact Or.inr ⟨Or.inr rfl, hT⟩
          · exact Or.inl hv
          · exact Or.inr ⟨Or.inl hv, hTv⟩
      have hnot : j ∉ S ∪ {v | v < j ∧ T v} := by
        rintro (hjS | ⟨hjj, -⟩)
        · exact hdisj j hj hT hjS
        · exact lt_irrefl j hjj
      rw [hset]
      exact hstep j hj hT _ _ hnot ih
    · have hset : {v | v < j + 1 ∧ T v} = {v | v < j ∧ T v} := by
        ext v
        simp only [Set.mem_ofPred_eq]
        refine and_congr_left fun hv => ⟨fun hvj => ?_, fun hvj => by omega⟩
        have hne : v ≠ j := fun h => hT (h ▸ hv)
        omega
      rw [hset]
      exact hskip j hj hT _ _ Set.subset_union_left ih

/-! ## All indices labelled -/

/-- When all indices are labelled, the count is the number of labels. -/
theorem Labelled.keyCount_eq (h : Labelled n key S w m) (hS : ∀ v < n, v ∈ S) :
    keyCount w n = m := by
  have : keys w n = Finset.range m := by
    ext l
    rw [mem_keys, Finset.mem_range]
    constructor
    · rintro ⟨v, hv, rfl⟩
      exact h.lt v (hS v hv)
    · intro hl
      obtain ⟨v, hv, hvl⟩ := h.onto l hl
      exact ⟨v, h.mem_lt v hv, hvl⟩
  rw [keyCount, this, Finset.card_range]

/-- Every index has a label of its own exactly when there are as many labels as indices. -/
theorem Labelled.injOn_iff (h : Labelled n key {v | v < n} w m) :
    (∀ u < n, ∀ v < n, w u = w v → u = v) ↔ m = n := by
  have hcount : ((Finset.range n).image w).card = m := h.keyCount_eq fun v hv => hv
  rw [← hcount]
  constructor
  · intro hinj
    have hcard := Finset.card_image_of_injOn (s := Finset.range n) (f := w) fun u hu v hv =>
      hinj u (Finset.mem_range.1 hu) v (Finset.mem_range.1 hv)
    exact hcard.trans (Finset.card_range n)
  · intro hn u hu v hv huv
    have hinj := Finset.card_image_iff.1 (hn.trans (Finset.card_range n).symm)
    exact hinj (Finset.mem_coe.2 (Finset.mem_range.2 hu)) (Finset.mem_coe.2 (Finset.mem_range.2 hv))
      huv

/-- The labels read along a permutation of the indices. -/
theorem Labelled.comp_perm {τ : ℕ → ℕ} (h : Labelled n key {v | v < n} w m) (hτ : IsPerm n τ) :
    Labelled n (fun v => key (τ v)) {v | v < n} ⟨fun v => w (τ v)⟩ m where
  mem_lt _ hv := hv
  fresh _ hv hvS := absurd hv hvS
  lt v hv := h.lt _ (hτ.maps v hv)
  eq_iff u hu v hv := h.eq_iff _ (hτ.maps u hu) _ (hτ.maps v hv)
  onto l hl := by
    obtain ⟨v, hv, hvl⟩ := h.onto l hl
    obtain ⟨u, hu, rfl⟩ := hτ.surj hv
    exact ⟨u, hu, hvl⟩

/-- Two labellings by keys that tell the same indices apart differ by a renaming of the labels. -/
theorem Labelled.exists_renaming {κ' : Type*} {key' : ℕ → κ'} {S' : Set ℕ} {w' : Arr ℕ} {m' : ℕ}
    (h : Labelled n key S w m) (h' : Labelled n key' S' w' m') (hS : ∀ v < n, v ∈ S)
    (hS' : ∀ v < n, v ∈ S')
    (hkey : ∀ u < n, ∀ v < n, key u = key v ↔ key' u = key' v) :
    m' = m ∧ ∃ σ : ℕ → ℕ, IsPerm m σ ∧ ∀ v < n, w' v = σ (w v) := by
  have heq : ∀ u < n, ∀ v < n, w u = w v ↔ w' u = w' v := fun u hu v hv => by
    rw [h.eq_iff u (hS u hu) v (hS v hv), h'.eq_iff u (hS' u hu) v (hS' v hv), hkey u hu v hv]
  have hm : m' = m := by
    rw [← h.keyCount_eq hS, ← h'.keyCount_eq hS']
    exact keyCount_eq_of_iff heq
  have hrep : ∀ l, l < m → ∃ v, v < n ∧ w v = l := fun l hl => by
    obtain ⟨v, hv, hvl⟩ := h.onto l hl
    exact ⟨v, h.mem_lt v hv, hvl⟩
  choose! rep hrep using hrep
  refine ⟨hm, fun l => w' (rep l), ⟨fun l hl => ?_, fun l hl l' hl' hll => ?_⟩, fun v hv => ?_⟩
  · exact hm ▸ h'.lt _ (hS' _ (hrep l hl).1)
  · rw [← (hrep l hl).2, ← (hrep l' hl').2]
    exact (heq _ (hrep l hl).1 _ (hrep l' hl').1).2 hll
  · have hl := h.lt v (hS v hv)
    exact (heq v hv _ (hrep _ hl).1).1 (hrep _ hl).2.symm

end Labelling
