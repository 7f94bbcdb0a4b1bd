import Rbsc.Host.Window
import Rbsc.Lib.Labelling

/-!
# The labels of a round

Every batch hands out labels to its nodes, by their local labels, and the fill-in gives the nodes of
no batch a label each.  The key of a node is its batch and its local label, or the node itself; the
labels of a round are a labelling by these keys (`label_step_spec`, `label_loop_spec`,
`fill_in_spec`), in whatever order the nodes of different batches come.

* `InBatch win k v`: node `v` is not off the batch `k`;
* `nodeKey`: the key of a node;
* `Table`: what the `label_map` of a batch holds.
-/

namespace Rbsc.Host

open Arrays Gpu Labelling

/-- The batch `k` is not skipped and has the node in its mask. -/
def InBatch (win : ℕ → Option Window) (k v : ℕ) : Prop :=
  ∃ W, win k = some W ∧ W.batch_mask v ≠ .OFF_BATCH

instance (win : ℕ → Option Window) (k v : ℕ) : Decidable (InBatch win k v) :=
  match h : win k with
  | none => .isFalse (by rintro ⟨W, hW, -⟩; simp [h] at hW)
  | some W => decidable_of_iff (W.batch_mask v ≠ .OFF_BATCH) (by
      simp [InBatch, h])

/-- No node is in two batches. -/
def DisjointBatches (n : ℕ) (win : ℕ → Option Window) (batches : ℕ) : Prop :=
  ∀ v < n, ∀ k < batches, ∀ k' < batches, InBatch win k v → InBatch win k' v → k = k'

/-- A batch with a local label, or a node. -/
abbrev NodeKey := (ℕ × ℕ) ⊕ ℕ

/-- The local label of a node in a partition that is copied from the device. -/
def localLabel (batch_partition : Arr Word) (v : ℕ) : ℕ := nodeT (batch_partition v).toNat

/-- The key of a node: its batch and its local label, or the node itself. -/
def nodeKey (win : ℕ → Option Window) (part : ℕ → Arr Word) (batches v : ℕ) : NodeKey :=
  match (List.range batches).find? fun k => InBatch win k v with
  | some k => .inl (k, localLabel (part k) v)
  | none => .inr v

section Key

variable {n batches : ℕ} {win : ℕ → Option Window} {part : ℕ → Arr Word}

theorem nodeKey_of_inBatch (hd : DisjointBatches n win batches) {k v : ℕ} (hv : v < n)
    (hk : k < batches) (hin : InBatch win k v) :
    nodeKey win part batches v = .inl (k, localLabel (part k) v) := by
  unfold nodeKey
  cases hf : (List.range batches).find? fun k => InBatch win k v with
  | none =>
    have := List.find?_eq_none.1 hf k (List.mem_range.2 hk)
    simp [hin] at this
  | some k' =>
    have hk' := List.mem_range.1 (List.mem_of_find?_eq_some hf)
    have hin' : InBatch win k' v := by simpa using List.find?_some hf
    rw [hd v hv k hk k' hk' hin hin']

theorem nodeKey_of_forall_not {v : ℕ} (h : ∀ k < batches, ¬ InBatch win k v) :
    nodeKey win part batches v = .inr v := by
  have hf : ((List.range batches).find? fun k => InBatch win k v) = none :=
    List.find?_eq_none.2 fun k hk => by simpa using h k (List.mem_range.1 hk)
  rw [nodeKey, hf]

/-- **Two nodes with one key** are one node, or have one local label in one batch. -/
theorem nodeKey_eq_iff (hd : DisjointBatches n win batches) {u v : ℕ} (hu : u < n) (hv : v < n) :
    nodeKey win part batches u = nodeKey win part batches v ↔ u = v ∨ ∃ k < batches,
      InBatch win k u ∧ InBatch win k v ∧ localLabel (part k) u = localLabel (part k) v := by
  constructor
  · intro h
    by_cases hin : ∃ k < batches, InBatch win k u
    · obtain ⟨k, hk, hinu⟩ := hin
      rw [nodeKey_of_inBatch hd hu hk hinu] at h
      by_cases hin' : ∃ k < batches, InBatch win k v
      · obtain ⟨k', hk', hinv⟩ := hin'
        rw [nodeKey_of_inBatch hd hv hk' hinv] at h
        obtain ⟨rfl, hl⟩ := Prod.ext_iff.1 (Sum.inl.inj h)
        exact Or.inr ⟨k, hk, hinu, hinv, hl⟩
      · rw [nodeKey_of_forall_not fun k hk hk' => hin' ⟨k, hk, hk'⟩] at h
        cases h
    · rw [nodeKey_of_forall_not fun k hk hk' => hin ⟨k, hk, hk'⟩] at h
      by_cases hin' : ∃ k < batches, InBatch win k v
      · obtain ⟨k', hk', hinv⟩ := hin'
        rw [nodeKey_of_inBatch hd hv hk' hinv] at h
        cases h
      · rw [nodeKey_of_forall_not fun k hk hk' => hin' ⟨k, hk, hk'⟩] at h
        exact Or.inl (Sum.inr.inj h)
  · rintro (rfl | ⟨k, hk, hinu, hinv, hl⟩)
    · rfl
    · rw [nodeKey_of_inBatch hd hu hk hinu, nodeKey_of_inBatch hd hv hk hinv, hl]

end Key

/-! ## The labels of one batch -/

/-- `label_map` holds the labels of the batch `k`. -/
def Table (n : ℕ) (key : ℕ → NodeKey) (S : Set ℕ) (w : Arr ℕ) (k : ℕ) (label_map : Arr ℕ) : Prop :=
  ∀ l < n, Entry n key S w (.inl (k, l)) (label_map l)

/-- Before the loop, when no node of the batch is labelled. -/
theorem Table.init {n : ℕ} {key : ℕ → NodeKey} {S : Set ℕ} {w : Arr ℕ} {k : ℕ}
    (h : ∀ v ∈ S, ∀ l, key v ≠ .inl (k, l)) : Table n key S w k (label_map_init n) := by
  intro l hl
  rw [label_map_init, fill_of_lt _ _ hl]
  exact Or.inr ⟨rfl, fun v hv => h v hv l⟩

/-- The table of another batch. -/
theorem Table.step_of_ne {n : ℕ} {key : ℕ → NodeKey} {S : Set ℕ} {w : Arr ℕ} {k k' i l y : ℕ}
    {label_map : Arr ℕ} (h : Table n key S w k' label_map) (hi : i ∉ S)
    (hkey : key i = .inl (k, l)) (hk : k ≠ k') :
    Table n key (insert i S) (w.set i y) k' label_map := by
  refine fun l' hl' => Entry.step_of_ne hi (fun h' => hk ?_) (h l' hl')
  exact (Prod.ext_iff.1 (Sum.inl.inj (hkey.symm.trans h'))).1

section Step

variable {n : ℕ} {batch_mask : Arr Mask} {p : Arr Word} {key : ℕ → NodeKey} {S : Set ℕ} {s : Labels}
  {k i : ℕ}

theorem label_step_of_off (h : batch_mask i = .OFF_BATCH) :
    label_step n batch_mask p s i = s := by rw [label_step, if_pos h]

/-- The label that a node of the batch gets. -/
def newLabel (n : ℕ) (p : Arr Word) (s : Labels) (i : ℕ) : ℕ :=
  if s.label_map (localLabel p i) = n then s.new_node_n else s.label_map (localLabel p i)

theorem label_step_w (h : batch_mask i ≠ .OFF_BATCH) :
    (label_step n batch_mask p s i).w = s.w.set i (newLabel n p s i) := by
  rw [label_step, if_neg h]
  unfold newLabel localLabel
  dsimp only
  split_ifs <;> rfl

/-- After the step, the map holds the label of the node. -/
theorem label_step_self (h : batch_mask i ≠ .OFF_BATCH) :
    (label_step n batch_mask p s i).w i =
      (label_step n batch_mask p s i).label_map (localLabel p i) := by
  rw [label_step, if_neg h]
  unfold localLabel
  dsimp only
  split_ifs <;> simp

/-- **One node of a batch.** -/
theorem label_step_spec (hn : n < 2 ^ 32) (h : Labelled n key S s.w s.new_node_n)
    (ht : Table n key S s.w k s.label_map) (hi : i < n) (hiS : i ∉ S)
    (hoff : batch_mask i ≠ .OFF_BATCH) (hkey : key i = .inl (k, localLabel p i))
    (hl : localLabel p i < n) :
    Labelled n key (insert i S) (label_step n batch_mask p s i).w
        (label_step n batch_mask p s i).new_node_n ∧
      Table n key (insert i S) (label_step n batch_mask p s i).w k
        (label_step n batch_mask p s i).label_map := by
  have hentry : Entry n key S s.w (key i) (s.label_map (localLabel p i)) := by
    rw [hkey]; exact ht _ hl
  have hstep := h.step hi hiS hentry
  have hlt := h.lt_of_notMem hi hiS
  rw [label_step_w hoff]
  have hother : ∀ l < n, l ≠ localLabel p i →
      Entry n key (insert i S) (s.w.set i (newLabel n p s i)) (.inl (k, l)) (s.label_map l) :=
    fun l hln hne => Entry.step_of_ne hiS (fun hk => hne (by
      rw [hkey] at hk
      exact (Prod.ext_iff.1 (Sum.inl.inj hk)).2.symm)) (ht l hln)
  have hself : Entry n key (insert i S) (s.w.set i (newLabel n p s i))
      (.inl (k, localLabel p i)) (newLabel n p s i) := by
    rw [← hkey]; exact Entry.step_self _
  by_cases hnew : s.label_map (localLabel p i) = n
  · have hlab : newLabel n p s i = s.new_node_n := by rw [newLabel, if_pos hnew]
    have hs : label_step n batch_mask p s i = ⟨s.w.set i s.new_node_n, nodeT (s.new_node_n + 1),
        s.label_map.set (localLabel p i) s.new_node_n⟩ := by
      rw [label_step, if_neg hoff]
      exact if_pos hnew
    rw [if_pos hnew, if_pos hnew] at hstep
    rw [hlab] at hother hself ⊢
    rw [hs]
    refine ⟨by rwa [nodeT_of_lt (by omega)], fun l hln => ?_⟩
    change Entry _ _ _ _ _ (s.label_map.set _ _ l)
    by_cases hll : l = localLabel p i
    · rw [hll, Arr.set_self]; exact hself
    · rw [Arr.set_of_ne _ _ hll]; exact hother l hln hll
  · have hlab : newLabel n p s i = s.label_map (localLabel p i) := by rw [newLabel, if_neg hnew]
    have hs : label_step n batch_mask p s i =
        { s with w := s.w.set i (s.label_map (localLabel p i)) } := by
      rw [label_step, if_neg hoff]
      exact if_neg hnew
    rw [if_neg hnew, if_neg hnew] at hstep
    rw [hlab] at hother hself ⊢
    rw [hs]
    refine ⟨hstep, fun l hln => ?_⟩
    by_cases hll : l = localLabel p i
    · rw [hll]; exact hself
    · exact hother l hln hll

/-- The nodes of a batch. -/
def batchNodes (n : ℕ) (batch_mask : Arr Mask) : Set ℕ := {v | v < n ∧ batch_mask v ≠ .OFF_BATCH}

/-- **The loop over the nodes of a batch.** -/
theorem label_loop_spec (hn : n < 2 ^ 32) (h : Labelled n key S s.w s.new_node_n)
    (hS : ∀ v ∈ S, ∀ l, key v ≠ .inl (k, l))
    (hkey : ∀ v ∈ batchNodes n batch_mask, key v = .inl (k, localLabel p v))
    (hl : ∀ v < n, localLabel p v < n) :
    Labelled n key (S ∪ batchNodes n batch_mask) (label_loop n batch_mask p s).w
      (label_loop n batch_mask p s).new_node_n := by
  refine (foldl_insert (P := fun S' (s' : Labels) => Labelled n key S' s'.w s'.new_node_n ∧
      Table n key S' s'.w k s'.label_map) (T := fun v => batch_mask v ≠ .OFF_BATCH)
    (s := { s with label_map := label_map_init n }) ⟨h, Table.init hS⟩ (fun i hi hoff hiS => ?_)
    (fun i _ hoff S' s' _ hP => ?_) (fun i hi hoff S' s' hiS hP => ?_) n le_rfl).1
  · exact hS i hiS _ (hkey i ⟨hi, hoff⟩)
  · rw [label_step_of_off (not_not.1 hoff)]
    exact hP
  · exact label_step_spec hn hP.1 hP.2 hi hiS hoff (hkey i ⟨hi, hoff⟩) (hl i hi)

end Step

/-! ## The fill-in -/

section FillIn

variable {n : ℕ} {key : ℕ → NodeKey} {S : Set ℕ} {s : Names}

/-- The nodes that are labelled when the fill-in has gone over the nodes below `j`. -/
theorem fill_in_upto (hn : n < 2 ^ 32) (h : Labelled n key S s.w s.new_node_n)
    (hS : ∀ v ∈ S, ∀ u, key v ≠ .inr u) (hkey : ∀ v < n, v ∉ S → key v = .inr v) :
    ∀ j ≤ n, Labelled n key (S ∪ {v | v < j ∧ v ∉ S}) ((List.range j).foldl (fill_in_step n) s).w
      ((List.range j).foldl (fill_in_step n) s).new_node_n := by
  refine foldl_insert (P := fun S' (s' : Names) => Labelled n key S' s'.w s'.new_node_n) h
    (fun i _ hiS => hiS) (fun i _ hiS S' s' hsub hP => ?_) fun i hi hiS S' s' hiS' hP => ?_
  · -- a batch has labelled the node
    have hlt := hP.lt i (hsub (not_not.1 hiS))
    have hle := hP.le
    rw [fill_in_step, if_neg (by omega)]
    exact hP
  · have hno : ∀ u ∈ S', key u ≠ key i := fun u hu => by
      rw [hkey i hi hiS]
      by_cases huS : u ∈ S
      · exact hS u huS i
      · rw [hkey u (hP.mem_lt u hu) huS]
        exact fun he => hiS' (Sum.inr.inj he ▸ hu)
    have hlt := hP.lt_of_notMem hi hiS'
    have hstep := hP.step hi hiS' (Or.inr ⟨rfl, hno⟩)
    rw [if_pos rfl, if_pos rfl] at hstep
    rw [fill_in_step, if_pos (hP.fresh i hi hiS')]
    change Labelled n key _ _ (nodeT (s'.new_node_n + 1))
    rwa [nodeT_of_lt (by omega)]

/-- **The fill-in** labels all nodes that no batch has labelled, each by itself. -/
theorem fill_in_spec (hn : n < 2 ^ 32) (h : Labelled n key S s.w s.new_node_n)
    (hS : ∀ v ∈ S, ∀ u, key v ≠ .inr u) (hkey : ∀ v < n, v ∉ S → key v = .inr v) :
    Labelled n key {v | v < n} (fill_in n s).w (fill_in n s).new_node_n := by
  have hall := fill_in_upto hn h hS hkey n le_rfl
  have hset : S ∪ {v | v < n ∧ v ∉ S} = {v | v < n} := by
    ext v
    constructor
    · rintro (hv | hv)
      · exact h.mem_lt v hv
      · exact hv.1
    · exact fun hv => (Classical.em (v ∈ S)).imp id fun hvS => ⟨hv, hvS⟩
  rwa [hset] at hall

/-- The label that the fill-in gives to a node is not the sentinel. -/
theorem fill_in_label_lt (hn : n < 2 ^ 32) (h : Labelled n key S s.w s.new_node_n)
    (hS : ∀ v ∈ S, ∀ u, key v ≠ .inr u) (hkey : ∀ v < n, v ∉ S → key v = .inr v) {j : ℕ} (hj : j < n)
    (hw : ((List.range j).foldl (fill_in_step n) s).w j = n) :
    ((List.range j).foldl (fill_in_step n) s).new_node_n < n := by
  have hpre := fill_in_upto hn h hS hkey j hj.le
  refine hpre.lt_of_notMem hj fun hmem => ?_
  have hlt := hpre.lt j hmem
  have hle := hpre.le
  omega

end FillIn

end Rbsc.Host
