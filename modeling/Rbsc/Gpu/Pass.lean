import Rbsc.Gpu.Model

/-!
# One pass of the refinement

What the kernels and the two sorts of a pass do to the labels, as long as the grid of a node kernel
covers all nodes (`GridFits`) and the labels in `d_w` have 32 bits: the new label of a node is the
rank of the pair of its patched sum and its old label (`classify_d_z`), the count is the number of
distinct pairs (`classify_count`), and the retry loop leaves after one turn because `randomize` is
injective (`retry_returns`).

* `patched`: the sum after `mend_partition`;
* `passKey`: the pair that the two sorts order the nodes by;
* `firstOrder`, `order`: the node lists after the first and the second sort.
-/

namespace Rbsc.Gpu

open Arrays DenseRank DoWhile StableSort

/-- The grid of a node kernel does not wrap. -/
def GridFits (node_n : ℕ) : Prop := node_n + (THREAD_N - 1) < 2 ^ 32

instance (node_n : ℕ) : Decidable (GridFits node_n) := by unfold GridFits; infer_instance

theorem GridFits.mono {m n : ℕ} (h : GridFits n) (hm : m ≤ n) : GridFits m := by
  unfold GridFits at *; omega

theorem GridFits.lt {n : ℕ} (h : GridFits n) : n + 255 < 2 ^ 32 := h

theorem threads_node {n : ℕ} (h : GridFits n) : threads (node_grid n) n = n := by
  have := h.lt
  unfold threads node_grid THREAD_N
  rw [nodeT_of_lt (by omega)]
  omega

/-- A grid that does not fit has zero blocks. -/
theorem threads_wrapped {n : ℕ} (hn : n < 2 ^ 32) (hw : ¬ GridFits n) :
    threads (node_grid n) n = 0 := by
  unfold GridFits THREAD_N at hw
  unfold threads node_grid THREAD_N nodeT
  omega

theorem threads_edge (n : ℕ) : threads (edge_grid n) n = n := by
  unfold threads edge_grid THREAD_N
  omega

/-! ## The two sorts -/

/-- The sum of a node after `mend_partition`. -/
def patched (batch_mask : Arr Mask) (d : Device) (v : ℕ) : Word :=
  match batch_mask v with
  | .OFF_BATCH => BitVec.allOnes 64
  | .DANGLING => 0
  | .IN_BATCH => d.d_buffer v

/-- The patched sum and the old label. -/
def passKey (batch_mask : Arr Mask) (d : Device) (v : ℕ) : ℕ ×ₗ ℕ :=
  toLex ((patched batch_mask d v).toNat, (d.d_w v).toNat)

theorem passKey_eq_iff {batch_mask : Arr Mask} {d : Device} {u v : ℕ} :
    passKey batch_mask d u = passKey batch_mask d v ↔
      patched batch_mask d u = patched batch_mask d v ∧ d.d_w u = d.d_w v := by
  simp [passKey, Prod.ext_iff, BitVec.toNat_inj]

/-- The node list after the first sort, by the low 32 bits of the old labels. -/
def firstOrder (cub : Cub) (n : ℕ) (d : Device) : List ℕ :=
  (cub.sortPairs 32 ((List.range n).map fun v => (d.d_w v, v))).map Prod.snd

/-- The node list after the second sort, by the patched sums. -/
def order (cub : Cub) (n : ℕ) (batch_mask : Arr Mask) (d : Device) : List ℕ :=
  (cub.sortPairs 64 ((firstOrder cub n d).map fun v => (patched batch_mask d v, v))).map Prod.snd

/-- A rearrangement of pairs `(f v, v)` consists of such pairs. -/
theorem eq_map_snd {f : ℕ → Word} {l : List ℕ} {l' : List (Word × ℕ)}
    (h : l'.Perm (l.map fun v => (f v, v))) : l' = (l'.map Prod.snd).map fun v => (f v, v) := by
  rw [List.map_map]
  refine (List.map_id l').symm.trans (List.map_congr_left fun p hp => ?_)
  obtain ⟨v, -, rfl⟩ := List.mem_map.1 (h.mem_iff.1 hp)
  rfl

theorem map_snd_perm {f : ℕ → Word} {l : List ℕ} {l' : List (Word × ℕ)}
    (h : l'.Perm (l.map fun v => (f v, v))) : (l'.map Prod.snd).Perm l := by
  have := h.map Prod.snd
  rwa [List.map_map, show (Prod.snd ∘ fun v => (f v, v)) = id from rfl, List.map_id] at this

section Sorts

variable (cub : Cub) {n : ℕ} (batch_mask : Arr Mask) (d : Device)

theorem firstOrder_perm : (firstOrder cub n d).Perm (List.range n) :=
  map_snd_perm (cub.sortPairs_stable 32 _).perm

theorem order_perm : (order cub n batch_mask d).Perm (List.range n) :=
  (map_snd_perm (cub.sortPairs_stable 64 _).perm).trans (firstOrder_perm cub d)

theorem length_order : (order cub n batch_mask d).length = n := by
  simpa using (order_perm cub batch_mask d).length_eq

theorem length_firstOrder : (firstOrder cub n d).length = n := by
  simpa using (firstOrder_perm cub d).length_eq

/-- With labels of 32 bits, the first sort orders by the labels. -/
theorem firstOrder_sorted (hw : ∀ v < n, (d.d_w v).toNat < 2 ^ 32) :
    (firstOrder cub n d).Pairwise fun u v => (d.d_w u).toNat ≤ (d.d_w v).toNat := by
  have hst := cub.sortPairs_stable 32 ((List.range n).map fun v => (d.d_w v, v))
  have hs := hst.sorted
  rw [eq_map_snd hst.perm, List.pairwise_map] at hs
  refine hs.imp_of_mem fun {u v} hu hv huv => ?_
  have hlt : ∀ x ∈ firstOrder cub n d, (d.d_w x).toNat < 2 ^ 32 := fun x hx =>
    hw x (List.mem_range.1 ((firstOrder_perm cub d).mem_iff.1 hx))
  simp only at huv
  rwa [Nat.mod_eq_of_lt (hlt u hu), Nat.mod_eq_of_lt (hlt v hv)] at huv

/-- **Two stable passes sort by the pair.** -/
theorem order_sorted (hw : ∀ v < n, (d.d_w v).toNat < 2 ^ 32) :
    (order cub n batch_mask d).Pairwise fun u v =>
      passKey batch_mask d u ≤ passKey batch_mask d v := by
  have hst := cub.sortPairs_stable 64
    ((firstOrder cub n d).map fun v => (patched batch_mask d v, v))
  have hS : ((firstOrder cub n d).map fun v => (patched batch_mask d v, v)).Pairwise
      fun p q => (d.d_w p.2).toNat ≤ (d.d_w q.2).toNat :=
    List.pairwise_map.2 (firstOrder_sorted cub d hw)
  have hlex := hst.lex hS
  rw [eq_map_snd hst.perm, List.pairwise_map] at hlex
  refine hlex.imp fun {u v} huv => ?_
  have hmod : ∀ x : Word, x.toNat % 2 ^ 64 = x.toNat := fun x => Nat.mod_eq_of_lt x.isLt
  simp only [hmod] at huv
  exact Prod.Lex.toLex_le_toLex.2 huv

end Sorts

/-! ## The pass from `mend_partition` on -/

section Classify

variable (cub : Cub) {n : ℕ} (batch_mask : Arr Mask) (d : Device)

/-- What each buffer holds after `classify`, in the order in which they are written. -/
theorem classify_steps (hfit : GridFits n) :
    let d' := classify cub n batch_mask d
    (∀ i < n, d'.d_indexes i = (order cub n batch_mask d).getD i 0) ∧
      (∀ i < n, d'.d_truths i = if i ≠ 0 ∧
        passKey batch_mask d ((order cub n batch_mask d).getD i 0) ≠
          passKey batch_mask d ((order cub n batch_mask d).getD (i - 1) 0) then 1 else 0) ∧
      (∀ i < n, d'.d_cumsum i = nodeT ((toList n d'.d_truths).take (i + 1)).sum) ∧
      (∃ a, d'.d_z = scatter n d'.d_indexes (fun i => (d'.d_cumsum i : Word)) a) ∧
      d'.d_w = d.d_w := by
  have ht := threads_node hfit
  -- the buffers, one by one
  set z₁ := mend_partition (node_grid n) d.d_z d.d_buffer batch_mask n with hz₁
  have hz₁v : ∀ v < n, z₁ v = patched batch_mask d v := fun v hv => by
    rw [hz₁, mend_partition, ht, fill_of_lt _ _ hv]
    rfl
  set idx₁ := create_index (node_grid n) d.d_indexes n with hidx₁
  have hidx₁v : ∀ v < n, idx₁ v = v := fun v hv => by
    rw [hidx₁, create_index, ht, fill_of_lt _ _ hv]
    rfl
  have hin₁ : ((List.range n).map fun i => (d.d_w i, idx₁ i)) =
      (List.range n).map fun v => (d.d_w v, v) :=
    List.map_congr_left fun v hv => by rw [hidx₁v v (List.mem_range.1 hv)]
  set p₁ := cub.sortPairs 32 ((List.range n).map fun i => (d.d_w i, idx₁ i)) with hp₁
  have hsnd₁ : p₁.map Prod.snd = firstOrder cub n d := by rw [hp₁, hin₁]; rfl
  set si := store (p₁.map Prod.snd) d.d_sorted_indexes with hsi
  have hsiv : ∀ i (hi : i < (firstOrder cub n d).length), si i = (firstOrder cub n d)[i] :=
    fun i hi => by
      simp only [hsi, hsnd₁]
      exact store_of_lt _ hi
  set buf := gather (node_grid n) si z₁ (store (p₁.map Prod.fst) d.d_buffer) n with hbuf
  have hbufv : ∀ i < n, buf i = patched batch_mask d (si i) := fun i hi => by
    rw [hbuf, gather, ht, fill_of_lt _ _ hi, hz₁v]
    rw [hsiv i (by rw [length_firstOrder]; exact hi)]
    exact List.mem_range.1 ((firstOrder_perm cub d).mem_iff.1 (List.getElem_mem _))
  have hin₂ : ((List.range n).map fun i => (buf i, si i)) =
      (firstOrder cub n d).map fun v => (patched batch_mask d v, v) := by
    refine List.ext_getElem (by simp [length_firstOrder]) fun i hi _ => ?_
    have hi' : i < n := by simpa using hi
    simp only [List.getElem_map, List.getElem_range, hbufv i hi',
      hsiv i (by rw [length_firstOrder]; exact hi')]
  set p₂ := cub.sortPairs 64 ((List.range n).map fun i => (buf i, si i)) with hp₂
  have hsnd₂ : p₂.map Prod.snd = order cub n batch_mask d := by rw [hp₂, hin₂]; rfl
  have hfst₂ : p₂.map Prod.fst = (order cub n batch_mask d).map (patched batch_mask d) := by
    have hperm : p₂.Perm ((firstOrder cub n d).map fun v => (patched batch_mask d v, v)) := by
      rw [hp₂, hin₂]; exact (cub.sortPairs_stable 64 _).perm
    rw [← hsnd₂]
    conv_lhs => rw [eq_map_snd hperm]
    simp [List.map_map, Function.comp_def]
  set z₂ := store (p₂.map Prod.fst) z₁ with hz₂
  set idx₂ := store (p₂.map Prod.snd) idx₁ with hidx₂
  have hidx₂v : ∀ i < n, idx₂ i = (order cub n batch_mask d).getD i 0 := fun i hi => by
    have hlen : i < (order cub n batch_mask d).length := by rw [length_order]; exact hi
    rw [List.getD_eq_getElem _ _ hlen]
    simp only [hidx₂, hsnd₂]
    exact store_of_lt _ hlen
  have hz₂v : ∀ i < n, z₂ i = patched batch_mask d (idx₂ i) := fun i hi => by
    have hlen : i < (order cub n batch_mask d).length := by rw [length_order]; exact hi
    rw [hidx₂v i hi, List.getD_eq_getElem _ _ hlen]
    simp only [hz₂, hfst₂]
    rw [store_of_lt _ (by simpa using hlen), List.getElem_map]
  set tr := compute_thruths_lex (node_grid n) z₂ d.d_w idx₂ d.d_truths n with htr
  have htrv : ∀ i < n, tr i = if i ≠ 0 ∧ passKey batch_mask d (idx₂ i) ≠
      passKey batch_mask d (idx₂ (i - 1)) then 1 else 0 := fun i hi => by
    rw [htr, compute_thruths_lex, ht, fill_of_lt _ _ hi]
    refine if_congr (and_congr_right fun h0 => ?_) rfl rfl
    rw [hz₂v i hi, hz₂v (i - 1) (by omega), ne_eq (passKey _ _ _), passKey_eq_iff, not_and_or]
    simp only [ne_eq, eq_comm]
  refine ⟨hidx₂v, fun i hi => ?_, fun i hi => ?_, ⟨z₂, ?_⟩, rfl⟩
  · rw [← hidx₂v i hi, ← hidx₂v (i - 1) (by omega)]
    exact htrv i hi
  · change store (cub.inclusiveSum (toList n tr)) d.d_cumsum i = _
    rw [cub.inclusiveSum_eq, store_of_lt _ (by simpa using hi)]
    simp only [List.getElem_map, List.getElem_range]
    rfl
  · change scatter (threads (node_grid n) n) _ _ _ = _
    rw [ht]
    rfl

theorem classify_indexes_isPerm (hfit : GridFits n) :
    IsPerm n (classify cub n batch_mask d).d_indexes := by
  have h := IsPerm.of_perm (order_perm cub batch_mask d (n := n))
  have hidx := (classify_steps cub batch_mask d hfit).1
  refine ⟨fun i hi => ?_, fun i hi j hj hij => h.inj i hi j hj ?_⟩
  · rw [hidx i hi]; exact h.maps i hi
  · rwa [hidx i hi, hidx j hj] at hij

theorem classify_indexes_sorted (hfit : GridFits n) (hw : ∀ v < n, (d.d_w v).toNat < 2 ^ 32) :
    ∀ i j, i ≤ j → j < n → passKey batch_mask d ((classify cub n batch_mask d).d_indexes i) ≤
      passKey batch_mask d ((classify cub n batch_mask d).d_indexes j) := by
  intro i j hij hj
  have hidx := (classify_steps cub batch_mask d hfit).1
  have hlen := length_order cub batch_mask d (n := n)
  rw [hidx i (by omega), hidx j hj, List.getD_eq_getElem _ _ (by omega),
    List.getD_eq_getElem _ _ (by omega)]
  rcases hij.lt_or_eq with hij | rfl
  · exact List.pairwise_iff_getElem.1 (order_sorted cub batch_mask d hw) i j _ _ hij
  · exact le_rfl

/-- The number of truths before a place. -/
theorem sum_take_truths {a : ℕ → ℕ} (key : ℕ → ℕ ×ₗ ℕ)
    (ha : ∀ i < n, a i = if i ≠ 0 ∧ key i ≠ key (i - 1) then 1 else 0) :
    ∀ i < n, (((List.range n).map a).take (i + 1)).sum = changes key i := by
  intro i
  induction i with
  | zero =>
    intro hi
    rw [← List.map_take, List.take_range, Nat.min_eq_left (by omega)]
    simp [ha 0 hi, changes]
  | succ i ih =>
    intro hi
    have ih := ih (by omega)
    rw [← List.map_take, List.take_range, Nat.min_eq_left (by omega)] at ih ⊢
    rw [List.range_succ, List.map_append, List.sum_append, ih, changes]
    simp [ha (i + 1) hi]

theorem classify_d_cumsum (hfit : GridFits n) {i : ℕ} (hi : i < n) :
    (classify cub n batch_mask d).d_cumsum i =
      changes (fun i => passKey batch_mask d ((classify cub n batch_mask d).d_indexes i)) i := by
  obtain ⟨hidx, htr, hcs, -, -⟩ := classify_steps cub batch_mask d hfit
  have hlt := hfit.lt
  rw [hcs i hi, toList, sum_take_truths (fun i => passKey batch_mask d
    ((classify cub n batch_mask d).d_indexes i)) (fun j hj => ?_) i hi]
  · exact nodeT_of_lt ((changes_le _ i).trans_lt (by omega))
  · rw [htr j hj, hidx j hj, hidx (j - 1) (by omega)]

/-- **The new labels.** -/
theorem classify_d_z (hfit : GridFits n) (hw : ∀ v < n, (d.d_w v).toNat < 2 ^ 32) {v : ℕ}
    (hv : v < n) :
    (classify cub n batch_mask d).d_z v = ((rank (passKey batch_mask d) n v : ℕ) : Word) := by
  obtain ⟨-, -, -, ⟨a, hz⟩, -⟩ := classify_steps cub batch_mask d hfit
  have hperm := classify_indexes_isPerm cub batch_mask d hfit
  obtain ⟨i, hi, rfl⟩ := hperm.surj hv
  rw [hz, scatter_perm hperm _ _ hi, classify_d_cumsum cub batch_mask d hfit hi,
    rank_eq_changes hperm (classify_indexes_sorted cub batch_mask d hfit hw) hi]

/-- **The new count.** -/
theorem classify_count (hfit : GridFits n) (hw : ∀ v < n, (d.d_w v).toNat < 2 ^ 32)
    (hn : 0 < n) :
    nodeT ((classify cub n batch_mask d).d_cumsum (n - 1) + 1) =
      keyCount (passKey batch_mask d) n := by
  have hlt := hfit.lt
  have hperm := classify_indexes_isPerm cub batch_mask d hfit
  rw [classify_d_cumsum cub batch_mask d hfit (by omega),
    keyCount_eq_changes hperm hn (classify_indexes_sorted cub batch_mask d hfit hw)]
  exact nodeT_of_lt ((Nat.succ_le_succ (changes_le _ _)).trans_lt (by omega))

@[simp] theorem classify_d_w (hfit : GridFits n) : (classify cub n batch_mask d).d_w = d.d_w :=
  (classify_steps cub batch_mask d hfit).2.2.2.2

end Classify

/-! ## The retry loop -/

section Retry

variable (cub : Cub) {n : ℕ}

theorem countP_changes {a : ℕ → Word} (hn : 0 < n) :
    (List.range n).countP (fun i => i = 0 ∨ a i ≠ a (i - 1)) =
      changes (fun i => (a i).toNat) (n - 1) + 1 := by
  induction n with
  | zero => omega
  | succ n ih =>
    rw [List.range_succ, List.countP_append]
    cases n with
    | zero => simp [changes]
    | succ n =>
      rw [ih (by omega)]
      simp only [Nat.add_sub_cancel, changes, List.countP_singleton]
      by_cases h : a (n + 1) = a n <;> simp [h, BitVec.toNat_inj]

/-- The number of distinct words of an array, from its sorted list. -/
theorem count_sorted (hfit : GridFits n) (hn : 0 < n) (w buf : Arr Word) :
    count_unique_elements (node_grid n) n 0 (store (cub.sortKeys (toList n w)) buf) =
      keyCount (fun v => (w v).toNat) n := by
  have hlt := hfit.lt
  have hperm := cub.sortKeys_perm (toList n w)
  have hlen : (cub.sortKeys (toList n w)).length = n := by simpa using hperm.length_eq
  set a := store (cub.sortKeys (toList n w)) buf with ha
  have hav : ∀ i (hi : i < (cub.sortKeys (toList n w)).length),
      a i = (cub.sortKeys (toList n w))[i] := fun i hi => store_of_lt _ hi
  have hsorted : ∀ i j, i ≤ j → j < n → (a i).toNat ≤ (a j).toNat := by
    intro i j hij hj
    rw [hav i (by omega), hav j (by omega)]
    rcases hij.lt_or_eq with hij | rfl
    · exact List.pairwise_iff_getElem.1 (cub.sortKeys_sorted _) i j _ _ hij
    · exact le_rfl
  -- the sorted list has the same keys
  have hkeys : keys (fun i => (a i).toNat) n = keys (fun v => (w v).toNat) n := by
    ext k
    simp only [mem_keys]
    constructor
    · rintro ⟨i, hi, rfl⟩
      obtain ⟨v, hv, hwv⟩ := mem_toList.1 (hperm.mem_iff.1 (List.getElem_mem (by omega : i < _)))
      exact ⟨v, hv, by rw [hwv, hav i (by omega)]⟩
    · rintro ⟨v, hv, rfl⟩
      obtain ⟨i, hi, hiv⟩ := List.getElem_of_mem (hperm.mem_iff.2 (mem_toList.2 ⟨v, hv, rfl⟩))
      exact ⟨i, by omega, by rw [hav i (by omega), hiv]⟩
  rw [count_unique_elements, threads_node hfit, Nat.zero_add, countP_changes hn,
    ← keyCount_sorted hn hsorted, keyCount, hkeys]
  exact nodeT_of_lt (keyCount_le.trans_lt (by omega))

/-- A turn of the retry loop counts the labels: `randomize` tells them apart. -/
theorem retry_body_count (hfit : GridFits n) (hn : 0 < n) {r r' : Retry}
    (h : retry_body cub n r = some r') :
    r'.w_unique_n = keyCount (fun v => (r.dev.d_z v).toNat) n := by
  cases h
  dsimp only
  rw [count_sorted cub hfit hn]
  refine keyCount_eq_of_iff fun u hu v hv => ?_
  rw [randomize_w, threads_node hfit, fill_of_lt _ _ hu, fill_of_lt _ _ hv, BitVec.toNat_inj,
    BitVec.toNat_inj]
  exact ((randomize_add_injective (r.it + 1)).eq_iff (a := r.dev.d_z u)).symm

/-- The loop leaves after a turn that counts what it waits for. -/
theorem retry_of_count {r r' : Retry} (h : retry_body cub n r = some r') (fuel : ℕ) :
    retry cub n r'.w_unique_n (fuel + 1) r = some r' := by
  rw [retry, doWhile, h, Option.bind_some]
  simp

/-- **The retry loop leaves after one turn**: there are as many hashes as labels. -/
theorem retry_returns (hfit : GridFits n) (hn : 0 < n) (fuel : ℕ) (r : Retry) :
    ∃ r', retry cub n (keyCount (fun v => (r.dev.d_z v).toNat) n) (fuel + 1) r = some r' ∧
      r'.it = r.it + 1 ∧ r'.dev.d_z = r.dev.d_z := by
  obtain ⟨r', hr'⟩ : ∃ r', retry_body cub n r = some r' := ⟨_, rfl⟩
  refine ⟨r', ?_, by cases hr'; rfl, by cases hr'; rfl⟩
  rw [← retry_body_count cub hfit hn hr']
  exact retry_of_count cub hr' fuel

/-- With zero blocks nothing is counted. -/
theorem retry_wrapped {cub : Cub} (hn : n < 2 ^ 32) (hw : ¬ GridFits n) {t t' : Retry}
    (h : retry_body cub n t = some t') : t'.w_unique_n = 0 := by
  cases h
  change count_unique_elements (node_grid n) n 0 _ = 0
  rw [count_unique_elements, threads_wrapped hn hw]
  rfl

end Retry

/-! ## The pass -/

/-- The labels have 32 bits. -/
def SmallLabels (n : ℕ) (d : Device) : Prop := ∀ v < n, (d.d_w v).toNat < 2 ^ 32

/-- What a pass does: the labels are ranked by patched sum and old label. -/
structure PassSpec (sums : Sums) (n : ℕ) (batch_mask : Arr Mask) (r r' : Refine) : Prop where
  d_w : ∀ v < n, r'.dev.d_w v = ((rank (passKey batch_mask (sums r.it r.dev)) n v : ℕ) : Word)
  it : r'.it = r.it + 1
  z_unique_n : r'.z_unique_n = r.new_z_unique_n
  new_z_unique_n : r'.new_z_unique_n = keyCount (passKey batch_mask (sums r.it r.dev)) n

theorem rank_toNat {n : ℕ} (hfit : GridFits n) (key : ℕ → ℕ ×ₗ ℕ) {v : ℕ} (hv : v < n) :
    ((rank key n v : ℕ) : Word).toNat = rank key n v := by
  have h₁ : rank key n v < keyCount key n := rank_lt_keyCount hv
  have h₂ : keyCount key n ≤ n := keyCount_le
  have := hfit.lt
  rw [BitVec.natCast_eq_ofNat, BitVec.toNat_ofNat, Nat.mod_eq_of_lt (by omega)]

/-- **A pass returns.** -/
theorem pass_returns (cub : Cub) (sums : Sums) {n : ℕ}
    (hfit : GridFits n) (hn : 0 < n) (batch_mask : Arr Mask) (fuel : ℕ) {r : Refine}
    (hw : SmallLabels n r.dev) :
    ∃ r', pass cub sums n batch_mask (fuel + 1) r = some r' ∧
      PassSpec sums n batch_mask r r' := by
  set d := sums r.it r.dev with hd
  have hw' : ∀ v < n, (d.d_w v).toNat < 2 ^ 32 := by rw [hd, sums.keeps]; exact hw
  have hz : ∀ v < n, (classify cub n batch_mask d).d_z v = ((rank (passKey batch_mask d) n v : ℕ) :
      Word) := fun v hv => classify_d_z cub batch_mask d hfit hw' hv
  have hcount := classify_count cub batch_mask d hfit hw' hn
  have hkc : keyCount (passKey batch_mask d) n =
      keyCount (fun v => ((classify cub n batch_mask d).d_z v).toNat) n := by
    refine keyCount_eq_of_iff fun u hu v hv => ?_
    rw [hz u hu, hz v hv, rank_toNat hfit _ hu, rank_toNat hfit _ hv, rank_eq_iff hu hv]
  obtain ⟨t, ht, hit, hdz⟩ := retry_returns cub hfit hn fuel
    { dev := classify cub n batch_mask d, it := r.it, w_unique_n := 0 }
  rw [← hkc, ← hcount] at ht
  refine ⟨_, congrArg (Option.map _) ht, fun v hv => ?_, hit, rfl, hcount⟩
  change t.dev.d_z v = _
  rw [hdz]
  exact hz v hv

end Rbsc.Gpu
