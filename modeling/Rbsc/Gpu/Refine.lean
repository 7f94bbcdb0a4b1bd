import Rbsc.Gpu.Pass
import Rbsc.Lib.RefineLoop

/-!
# The refinement of a window

The refinement loop on a mask, for sums that leave the labels alone: every pass refines the
partition by the labels (`partition_pass_le`), which starts as `maskPartition`, and the loop returns
within `node_n + 1` passes (`refine_returns`).  Nothing is asked of the sums; they may collide or
change from pass to pass.

* `maskPartition`: the off-batch nodes are apart from all others, the dangling nodes are together,
  and so are the nodes in the batch;
* `AtPass`: the variables at the start of a pass;
* `off_lt_classCount`: the count that the loop starts with is at most the number of classes of
  `maskPartition`, if some node is in the batch.
-/

namespace Rbsc.Gpu

open Arrays DenseRank Lumping DoWhile

/-- The partition of the nodes by the labels on the device. -/
abbrev partition (n : ℕ) (r : Refine) : Setoid (Fin n) := labelPartition n r.dev.d_w

/-- The partition that `init_partition` starts from. -/
def maskPartition (n : ℕ) (batch_mask : Arr Mask) : Setoid (Fin n) where
  r u v := u = v ∨ batch_mask u = batch_mask v ∧ batch_mask u ≠ .OFF_BATCH
  iseqv := by
    refine ⟨fun u => Or.inl rfl, ?_, ?_⟩
    · rintro u v (rfl | ⟨h, hu⟩)
      · exact Or.inl rfl
      · exact Or.inr ⟨h.symm, h ▸ hu⟩
    · rintro u v w (rfl | ⟨h, hu⟩) (rfl | ⟨h', hv⟩)
      · exact Or.inl rfl
      · exact Or.inr ⟨h', hv⟩
      · exact Or.inr ⟨h, hu⟩
      · exact Or.inr ⟨h.trans h', hu⟩

theorem maskPartition_iff {n : ℕ} {batch_mask : Arr Mask} {u v : Fin n} :
    maskPartition n batch_mask u v ↔
      u = v ∨ batch_mask u = batch_mask v ∧ batch_mask u ≠ .OFF_BATCH := Iff.rfl

/-- The label that `init_partition` gives to a node. -/
def initLabel (n : ℕ) (batch_mask : Arr Mask) (v : ℕ) : ℕ :=
  match batch_mask v with
  | .IN_BATCH => n + 1
  | .DANGLING => 0
  | .OFF_BATCH => v + 1

theorem initLabel_le {n : ℕ} (batch_mask : Arr Mask) {v : ℕ} (hv : v < n) :
    initLabel n batch_mask v ≤ n + 1 := by
  unfold initLabel
  cases batch_mask v <;> dsimp only <;> omega

/-- The first labels are those of `maskPartition`. -/
theorem initLabel_eq_iff {n : ℕ} (batch_mask : Arr Mask) (u v : Fin n) :
    initLabel n batch_mask u = initLabel n batch_mask v ↔ maskPartition n batch_mask u v := by
  have hu := u.2
  have hv := v.2
  rw [maskPartition_iff, Fin.ext_iff]
  unfold initLabel
  generalize (u : ℕ) = u at *
  generalize (v : ℕ) = v at *
  have hne : u = v → batch_mask u = batch_mask v := congrArg _
  cases hmu : batch_mask u <;> cases hmv : batch_mask v <;> simp [hmu, hmv] at hne ⊢ <;> omega

/-- The number of off-batch nodes. -/
def offCount (n : ℕ) (batch_mask : Arr Mask) : ℕ :=
  ((Finset.range n).filter fun v => batch_mask v = .OFF_BATCH).card

/-- The off-batch nodes and the nodes in the batch make as many classes as the loop starts with. -/
theorem off_lt_classCount {n : ℕ} {batch_mask : Arr Mask} {x : ℕ} (hx : x < n)
    (hin : batch_mask x = .IN_BATCH) :
    offCount n batch_mask + 1 ≤ classCount (maskPartition n batch_mask) := by
  have heq : maskPartition n batch_mask = labelPartition n (initLabel n batch_mask) := by
    ext u v
    exact (initLabel_eq_iff batch_mask u v).symm
  rw [heq, classCount_labelPartition, keyCount]
  set off := (Finset.range n).filter fun v => batch_mask v = .OFF_BATCH with hoff
  have hsub : insert (n + 1) (off.image (· + 1)) ⊆ keys (initLabel n batch_mask) n := by
    intro k hk
    rcases Finset.mem_insert.1 hk with rfl | hk
    · exact mem_keys.2 ⟨x, hx, by simp [initLabel, hin]⟩
    · obtain ⟨v, hv, rfl⟩ := Finset.mem_image.1 hk
      obtain ⟨hv, hm⟩ := Finset.mem_filter.1 hv
      exact mem_keys.2 ⟨v, Finset.mem_range.1 hv, by simp [initLabel, hm]⟩
  have hnot : n + 1 ∉ off.image (· + 1) := fun h => by
    obtain ⟨v, hv, hvn⟩ := Finset.mem_image.1 h
    have := Finset.mem_range.1 (Finset.mem_filter.1 hv).1
    omega
  calc offCount n batch_mask + 1 = (insert (n + 1) (off.image (· + 1))).card := by
        rw [Finset.card_insert_of_notMem hnot, Finset.card_image_of_injective _
          (add_left_injective 1)]
        rfl
    _ ≤ _ := Finset.card_le_card hsub

/-! ## The passes -/

/-- The variables at the start of pass `k`, counted from `0`. -/
def AtPass (cub : Cub) (sums : Sums) (n : ℕ) (batch_mask : Arr Mask) (off_batch_node_n : ℕ)
    (d : Device) (k : ℕ) (r : Refine) : Prop :=
  ∃ fuel, Entered (pass cub sums n batch_mask fuel) refine_again
    (refine_init n batch_mask off_batch_node_n d) k r

section Passes

variable {cub : Cub} {sums : Sums} {n : ℕ} {batch_mask : Arr Mask} {off_batch_node_n : ℕ}
  {d : Device} {fuel k : ℕ} {r r' : Refine}

/-- A pass that returns within some fuel returns the same with more. -/
theorem pass_mono {fuel' : ℕ} (hle : fuel ≤ fuel')
    (h : pass cub sums n batch_mask fuel r = some r') :
    pass cub sums n batch_mask fuel' r = some r' := by
  obtain ⟨t, ht, rfl⟩ := Option.map_eq_some_iff.1 h
  exact congrArg (Option.map _) (doWhile_mono hle ht)

theorem refine_loop_mono {fuel' : ℕ} (hle : fuel ≤ fuel')
    (h : refine_loop cub sums n batch_mask off_batch_node_n fuel d = some r) :
    refine_loop cub sums n batch_mask off_batch_node_n fuel' d = some r :=
  doWhile_mono_body hle (fun _ _ => pass_mono hle) h

theorem AtPass.unique (h : AtPass cub sums n batch_mask off_batch_node_n d k r)
    (h' : AtPass cub sums n batch_mask off_batch_node_n d k r') : r = r' := by
  obtain ⟨fuel, h⟩ := h
  obtain ⟨fuel', h'⟩ := h'
  have hmax := h.mono fun _ _ => pass_mono (le_max_left fuel fuel')
  exact hmax.unique (h'.mono fun _ _ => pass_mono (le_max_right fuel fuel'))

theorem refine_init_d_w (hfit : GridFits n) {v : ℕ} (hv : v < n) :
    ((refine_init n batch_mask off_batch_node_n d).dev.d_w v).toNat = initLabel n batch_mask v := by
  have hlt := hfit.lt
  have hle := initLabel_le batch_mask hv
  have hword : ∀ x, x ≤ n + 1 → ((nodeT x : ℕ) : Word).toNat = x := fun x hx => by
    rw [nodeT_of_lt (by omega), BitVec.natCast_eq_ofNat, BitVec.toNat_ofNat,
      Nat.mod_eq_of_lt (by omega)]
  change ((init_partition (node_grid n) n batch_mask d.d_w) v).toNat = _
  rw [init_partition, threads_node hfit, fill_of_lt _ _ hv]
  unfold initLabel at hle ⊢
  cases hm : batch_mask v with
  | IN_BATCH => exact hword _ le_rfl
  | DANGLING => rfl
  | OFF_BATCH => exact hword _ (by omega)

theorem partition_init (hfit : GridFits n) :
    partition n (refine_init n batch_mask off_batch_node_n d) = maskPartition n batch_mask := by
  ext u v
  rw [labelPartition_iff, ← initLabel_eq_iff, ← refine_init_d_w hfit u.2,
    ← refine_init_d_w hfit v.2, BitVec.toNat_inj]

theorem PassSpec.small (hfit : GridFits n) (h : PassSpec sums n batch_mask r r') :
    SmallLabels n r'.dev := fun v hv => by
  have := hfit.lt
  rw [h.d_w v hv, rank_toNat hfit _ hv]
  exact ((rank_lt_keyCount hv).trans_le keyCount_le).trans (by omega)

/-- A pass that returns does what `PassSpec` says. -/
theorem PassSpec.of_pass (hfit : GridFits n) (hn : 0 < n)
    (hw : SmallLabels n r.dev) (h : pass cub sums n batch_mask fuel r = some r') :
    PassSpec sums n batch_mask r r' := by
  cases fuel with
  | zero => simp [pass, retry, doWhile] at h
  | succ fuel =>
    obtain ⟨r'', hr'', hspec⟩ := pass_returns cub _ hfit hn batch_mask fuel hw
    cases h.symm.trans hr''
    exact hspec

theorem AtPass.small (hfit : GridFits n) (hn : 0 < n)
    (h : AtPass cub sums n batch_mask off_batch_node_n d k r) : SmallLabels n r.dev := by
  obtain ⟨fuel, h⟩ := h
  induction h with
  | start =>
    intro v hv
    have := hfit.lt
    have hle := initLabel_le batch_mask hv
    rw [refine_init_d_w hfit hv]
    omega
  | next _ hb _ ih => exact (PassSpec.of_pass hfit hn ih hb).small hfit

theorem AtPass.spec (hfit : GridFits n) (hn : 0 < n)
    (h : AtPass cub sums n batch_mask off_batch_node_n d k r)
    (hb : pass cub sums n batch_mask fuel r = some r') : PassSpec sums n batch_mask r r' :=
  PassSpec.of_pass hfit hn (h.small hfit hn) hb

/-- The classes after a pass: nodes with the same patched sum and the same old label. -/
theorem PassSpec.partition_iff (hfit : GridFits n) (h : PassSpec sums n batch_mask r r')
    {u v : Fin n} : partition n r' u v ↔
      passKey batch_mask (sums r.it r.dev) u = passKey batch_mask (sums r.it r.dev) v := by
  rw [labelPartition_iff, h.d_w u u.2, h.d_w v v.2, ← BitVec.toNat_inj, rank_toNat hfit _ u.2,
    rank_toNat hfit _ v.2, rank_eq_iff u.2 v.2]

/-- **A pass refines**: equal new labels are equal old labels. -/
theorem PassSpec.le (hfit : GridFits n)
    (h : PassSpec sums n batch_mask r r') : partition n r' ≤ partition n r := by
  intro u v huv
  have := (passKey_eq_iff.1 ((h.partition_iff hfit).1 huv)).2
  rwa [sums.keeps] at this

theorem PassSpec.count (hfit : GridFits n) (h : PassSpec sums n batch_mask r r') :
    r'.new_z_unique_n = classCount (partition n r') := by
  rw [h.new_z_unique_n, ← classCount_labelPartition]
  congr 1
  ext u v
  rw [h.partition_iff hfit, labelPartition_iff]

/-- The partition refines `maskPartition` throughout. -/
theorem AtPass.le_maskPartition (hfit : GridFits n) (hn : 0 < n)
    (h : AtPass cub sums n batch_mask off_batch_node_n d k r) :
    partition n r ≤ maskPartition n batch_mask := by
  obtain ⟨fuel, h⟩ := h
  induction h with
  | start => rw [partition_init hfit]
  | next hs hb _ ih =>
    exact ((AtPass.spec hfit hn ⟨fuel, hs⟩ hb).le hfit).trans ih

/-! ## The loop -/

theorem refineLoop (cub : Cub) (sums : Sums) (batch_mask : Arr Mask) (off_batch_node_n : ℕ)
    (d : Device) (fuel : ℕ) (hfit : GridFits n) (hn : 0 < n) :
    RefineLoop (pass cub sums n batch_mask fuel) refine_again
      (refine_init n batch_mask off_batch_node_n d) (partition n) Refine.z_unique_n
      Refine.new_z_unique_n where
  again_iff r := by simp [refine_again]
  keeps _ r r' hr hb := (AtPass.spec hfit hn ⟨fuel, hr⟩ hb).z_unique_n
  counts _ r r' hr hb := (AtPass.spec hfit hn ⟨fuel, hr⟩ hb).count hfit
  refines _ r r' hr hb := (AtPass.spec hfit hn ⟨fuel, hr⟩ hb).le hfit

/-- **The refinement loop returns** within `n + 1` passes, whatever the sums are. -/
theorem refine_returns (cub : Cub) (sums : Sums) (batch_mask : Arr Mask) (off_batch_node_n : ℕ)
    (d : Device) (hfit : GridFits n) (hn : 0 < n) (hfuel : n + 1 ≤ fuel) :
    ∃ r, refine_loop cub sums n batch_mask off_batch_node_n fuel d = some r := by
  have : Nonempty (Fin n) := ⟨⟨0, hn⟩⟩
  obtain ⟨fuel, rfl⟩ : ∃ m, fuel = m + 1 := ⟨fuel - 1, by omega⟩
  have hloop := refineLoop cub sums batch_mask off_batch_node_n d (fuel + 1) hfit hn
  obtain ⟨r, hr⟩ := hloop.returns fun k r hr => by
    obtain ⟨r', hr', -⟩ := pass_returns cub _ hfit hn batch_mask fuel
      (AtPass.small hfit hn ⟨fuel + 1, hr⟩)
    exact ⟨r', hr'⟩
  rw [Fintype.card_fin] at hr
  exact ⟨r, doWhile_mono hfuel hr⟩

/-- The last pass of a loop that returned. -/
theorem exists_last_pass
    (h : refine_loop cub sums n batch_mask off_batch_node_n fuel d = some r') :
    ∃ k r, AtPass cub sums n batch_mask off_batch_node_n d k r ∧
      pass cub sums n batch_mask fuel r = some r' ∧ refine_again r' = false := by
  obtain ⟨k, -, r, hr, hb, ha⟩ := doWhile_eq_some_iff.1 h
  exact ⟨k, r, ⟨fuel, hr⟩, hb, ha⟩

end Passes

end Rbsc.Gpu
