import Rbsc.Gpu.Refine

/-!
# The refinement of a window with its own sums

With the sums that the program computes, the loop stays above the coarsest partition below
`maskPartition` that is stable for the edges of the window (`coarsest_le_pass`), whatever collides,
and without collisions it stops at that partition (`partition_eq_coarsest`).

* `WindowOk`: the window has whole groups, and the nodes in the batch are its sources;
* `window_sums_apply`: the sum of a source is its hash sum;
* `NoCollision`, `CollisionFree`: nodes in the batch with equal sums have equal weights into every
  current class, in one pass and in all passes.
-/

namespace Rbsc.Gpu

open Arrays DenseRank Lumping DoWhile Runs

/-! ## The sums -/

theorem consecutive_of_forall {l : List ℕ} (h : ∀ k (hk : k < l.length), ∀ j (hj : j < k),
    ∀ i (hi : i < j), l[i] = l[k] → l[j] = l[k]) : Consecutive l := by
  induction l with
  | nil => trivial
  | cons a l ih =>
    refine ⟨ih fun k hk j hj i hi => ?_, fun ha => ?_⟩
    · exact h (k + 1) (by simpa using hk) (j + 1) (by omega) (i + 1) (by omega)
    · obtain ⟨k, hk, rfl⟩ := List.getElem_of_mem ha
      rw [List.head?_eq_getElem?, List.getElem?_eq_getElem (by omega), Option.some_inj]
      cases k with
      | zero => rfl
      | succ k => exact h (k + 2) (Nat.succ_lt_succ hk) 1 (by omega) 0 (by omega) rfl

/-- In grouped edges the edges of every source stand together. -/
theorem consecutive_of_grouped {edges : List Edge} (h : Grouped edges) :
    Consecutive (edges.map Edge.edge_start) := by
  refine consecutive_of_forall fun k hk j hj i hi hik => ?_
  have hk : k < edges.length := by simpa using hk
  have := h k hk j hj i hi
  rw [startAt_eq (by omega), startAt_eq (by omega), startAt_eq (by omega)] at this
  simpa using this (by simpa using hik)

/-- The edges of a window, the mask that goes with it, and the count that `count_unique_elements`
leaves. -/
structure WindowOk (n : ℕ) (window : List Edge) (batch_mask : Arr Mask) : Prop where
  grouped : Grouped window
  ids : IdsBelow n window
  /-- The nodes in the batch are the sources of the window. -/
  in_batch_iff : ∀ v < n, batch_mask v = .IN_BATCH ↔ IsSource window v

/-- The count of `count_unique_elements` on the sources of a window. -/
def unique_count (window : List Edge) : ℕ :=
  count_unique_elements (edge_grid window.length) window.length 0 (startAt window)

section Sums

variable {n : ℕ} {window : List Edge} {batch_mask : Arr Mask}

theorem keySum_eq_hashSum (edges : List Edge) (f : ℕ → Word) (u : ℕ) :
    keySum (edges.map fun e => (e.edge_start, f e.edge_end * (e.edge_weight : Word))) u =
      hashSum edges f u := by
  unfold keySum hashSum
  rw [List.filter_map, List.map_map]
  rfl

/-- There are no more runs than nodes. -/
theorem runCount_le (h : WindowOk n window batch_mask) :
    runCount (window.map Edge.edge_start) ≤ n := by
  have hmap : (window.map fun e => (e.edge_start, (0 : ℕ))).map Prod.fst =
      window.map Edge.edge_start := by rw [List.map_map]; rfl
  have hnd := (runSums_spec (l := window.map fun e => (e.edge_start, (0 : ℕ))) (by
    rw [hmap]; exact consecutive_of_grouped h.grouped)).1
  have hsub : (runSums (window.map fun e => (e.edge_start, (0 : ℕ)))).map Prod.fst ⊆
      List.range n := fun k hk => by
    rw [mem_runSums_keys, hmap] at hk
    obtain ⟨e, he, rfl⟩ := List.mem_map.1 hk
    exact List.mem_range.2 (h.ids e he).1
  have hlen := (List.subperm_of_subset hnd hsub).length_le
  rw [List.length_map, length_runSums, hmap, List.length_range] at hlen
  exact hlen

theorem unique_count_eq (hfit : GridFits n) (h : WindowOk n window batch_mask) :
    unique_count window = runCount (window.map Edge.edge_start) := by
  have hcount : (List.range window.length).countP (fun i =>
      i = 0 ∨ startAt window i ≠ startAt window (i - 1)) =
        runCount (window.map Edge.edge_start) := by
    unfold runCount
    rw [List.length_map]
    refine List.countP_congr fun i hi => ?_
    have hi := List.mem_range.1 hi
    rw [startAt_eq hi, startAt_eq (by omega), List.getElem?_map, List.getElem?_map,
      List.getElem?_eq_getElem hi, List.getElem?_eq_getElem (by omega : i - 1 < window.length)]
    simp
  have hle := runCount_le h
  have := hfit.lt
  rw [unique_count, count_unique_elements, threads_edge, Nat.zero_add, hcount]
  exact nodeT_of_lt (by omega)

/-- **The sum of a source** is its hash sum over the edges of the window. -/
theorem window_sums_apply (cub : Cub) (hfit : GridFits n) (h : WindowOk n window batch_mask)
    (it : Word) (d : Device) {v : ℕ} (hv : IsSource window v) :
    (window_sums cub window (unique_count window) it d).d_buffer v =
      hashSum window (fun y => randomize (d.d_w y + it)) v := by
  set f : ℕ → Word := fun y => randomize (d.d_w y + it) with hf
  set vals := set_values (edge_grid window.length) window.length window d.d_buffer d.d_w it
    with hvals
  have hpairs : ((List.range window.length).map fun i => (startAt window i, vals i)) =
      window.map fun e => (e.edge_start, f e.edge_end * (e.edge_weight : Word)) := by
    refine List.ext_getElem (by simp) fun i hi _ => ?_
    have hi : i < window.length := by simpa using hi
    simp only [List.getElem_map, List.getElem_range]
    rw [startAt_eq hi, hvals, set_values, threads_edge, fill_of_lt _ _ hi, edgeAt_eq hi]
  set runs := runSums (window.map fun e => (e.edge_start, f e.edge_end * (e.edge_weight : Word)))
    with hruns
  have hmap : (window.map fun e => (e.edge_start, f e.edge_end * (e.edge_weight : Word))).map
      Prod.fst = window.map Edge.edge_start := by rw [List.map_map]; rfl
  obtain ⟨hnd, hsum⟩ := runSums_spec (l := window.map fun e =>
    (e.edge_start, f e.edge_end * (e.edge_weight : Word)))
    (by rw [hmap]; exact consecutive_of_grouped h.grouped)
  rw [← hruns] at hnd hsum
  have hlen : runs.length = unique_count window := by
    rw [unique_count_eq hfit h, hruns, length_runSums, hmap]
  have hthreads : threads (node_grid (unique_count window)) (unique_count window) = runs.length := by
    rw [hlen]
    exact threads_node (hfit.mono ((unique_count_eq hfit h).trans_le (runCount_le h)))
  have hbuf : (window_sums cub window (unique_count window) it d).d_buffer =
      scatter runs.length (store (runs.map Prod.fst) d.d_indexes)
        (store (runs.map Prod.snd) d.d_z) vals := by
    rw [← hthreads, hruns, ← hpairs, ← cub.reduceByKey_eq]
    rfl
  -- the run of `v`
  have hmem : v ∈ runs.map Prod.fst := by
    rw [hruns, mem_runSums_keys, hmap]
    obtain ⟨e, he, rfl⟩ := hv
    exact List.mem_map_of_mem he
  obtain ⟨i, hi, hiv⟩ := List.getElem_of_mem hmem
  have hir : i < runs.length := by simpa using hi
  have hidx : ∀ j (hj : j < runs.length), store (runs.map Prod.fst) d.d_indexes j = runs[j].1 :=
    fun j hj => by rw [store_of_lt _ (by simpa using hj), List.getElem_map]
  have hinj : ∀ j < runs.length, ∀ k < runs.length,
      store (runs.map Prod.fst) d.d_indexes j = store (runs.map Prod.fst) d.d_indexes k →
        j = k := fun j hj k hk hjk => by
    rw [hidx j hj, hidx k hk] at hjk
    have hj' : j < (runs.map Prod.fst).length := by simpa using hj
    have hk' : k < (runs.map Prod.fst).length := by simpa using hk
    have hkeys : (runs.map Prod.fst)[j] = (runs.map Prod.fst)[k] := by simpa using hjk
    exact (List.Nodup.getElem_inj_iff hnd).1 hkeys
  have hvi : runs[i].1 = v := by simpa using hiv
  rw [hbuf, ← hvi, ← hidx i hir, scatter_apply _ _ hinj hir, store_of_lt _ (by simpa using hir),
    List.getElem_map, hsum _ (List.getElem_mem _), keySum_eq_hashSum, hidx i hir]

end Sums

/-! ## The partition -/

/-- The sums of the program for a window. -/
abbrev sums_of (cub : Cub) (window : List Edge) : Sums :=
  window_sums cub window (unique_count window)

/-- Nodes in the batch with equal sums have equal weights into every class of the pass. -/
def NoCollision (cub : Cub) (n : ℕ) (window : List Edge) (batch_mask : Arr Mask) (r : Refine) :
    Prop :=
  ∀ u v : Fin n, batch_mask u = .IN_BATCH → batch_mask v = .IN_BATCH →
    (sums_of cub window r.it r.dev).d_buffer u = (sums_of cub window r.it r.dev).d_buffer v →
      SameWeights (weights window n) (partition n r) u v

/-- No pass over a window has a hash collision. -/
def CollisionFree (cub : Cub) (n : ℕ) (window : List Edge) (batch_mask : Arr Mask)
    (off_batch_node_n : ℕ) (d : Device) : Prop :=
  ∀ k r, AtPass cub (sums_of cub window) n batch_mask off_batch_node_n d k r →
    NoCollision cub n window batch_mask r

section Partition

variable {cub : Cub} {n : ℕ} {window : List Edge} {batch_mask : Arr Mask} {off_batch_node_n : ℕ}
  {d : Device} {fuel k : ℕ} {r r' : Refine}

/-- Nodes with the same mask and the same weights into every class stay together. -/
theorem PassSpec.of_sameWeights (hfit : GridFits n) (h : WindowOk n window batch_mask)
    (hs : PassSpec (sums_of cub window) n batch_mask r r') {u v : Fin n}
    (hm : maskPartition n batch_mask u v) (hw : partition n r u v)
    (huv : SameWeights (weights window n) (partition n r) u v) : partition n r' u v := by
  rw [hs.partition_iff hfit, passKey_eq_iff]
  refine ⟨?_, hw⟩
  rcases hm with rfl | ⟨hm, hoff⟩
  · rfl
  · unfold patched
    rw [← hm]
    cases hu : batch_mask u with
    | OFF_BATCH => exact absurd hu hoff
    | DANGLING => rfl
    | IN_BATCH =>
      dsimp only
      rw [window_sums_apply cub hfit h _ _ ((h.in_batch_iff u u.2).1 hu),
        window_sums_apply cub hfit h _ _ ((h.in_batch_iff v v.2).1 (hm ▸ hu))]
      refine hashSum_eq_of_sameWeights h.ids (fun y y' hy => ?_) huv
      rw [labelPartition_iff.1 hy]

/-- **Equivalent nodes are never separated**: the invariant of the passes, whatever collides. -/
theorem AtPass.coarsest_le (hfit : GridFits n) (hn : 0 < n) (h : WindowOk n window batch_mask)
    (hr : AtPass cub (sums_of cub window) n batch_mask off_batch_node_n d k r) :
    coarsest (weights window n) (maskPartition n batch_mask) ≤ partition n r := by
  obtain ⟨fuel, hr⟩ := hr
  induction hr with
  | start => rw [partition_init hfit]; exact Lumping.coarsest_le _ _
  | next hs hb _ ih =>
    intro u v huv
    have hspec := AtPass.spec hfit hn ⟨fuel, hs⟩ hb
    exact hspec.of_sameWeights hfit h (Lumping.coarsest_le _ _ huv) (ih huv)
      ((coarsest_stable _ _ u v huv).mono ih)

theorem coarsest_le_pass (hfit : GridFits n) (hn : 0 < n) (h : WindowOk n window batch_mask)
    (hr : AtPass cub (sums_of cub window) n batch_mask off_batch_node_n d k r)
    (hb : pass cub (sums_of cub window) n batch_mask fuel r = some r') :
    coarsest (weights window n) (maskPartition n batch_mask) ≤ partition n r' := fun u v huv =>
  (hr.spec hfit hn hb).of_sameWeights hfit h
    (Lumping.coarsest_le _ _ huv) (hr.coarsest_le hfit hn h huv)
    ((coarsest_stable _ _ u v huv).mono (hr.coarsest_le hfit hn h))

/-- Nodes outside the batch have no edges in the window. -/
theorem sameWeights_of_not_in (h : WindowOk n window batch_mask) (p : Setoid (Fin n))
    {u v : Fin n} (hu : batch_mask u ≠ .IN_BATCH) (hv : batch_mask v ≠ .IN_BATCH) :
    SameWeights (weights window n) p u v := by
  have hzero : ∀ x : Fin n, batch_mask x ≠ .IN_BATCH → ∀ y, weights window n x y = 0 :=
    fun x hx y => edgeWeight_eq_zero (fun hs => hx ((h.in_batch_iff x x.2).2 hs)) y
  intro x
  simp [classWeight, hzero u hu, hzero v hv]

/-- Nodes that a pass without collisions puts together have the same weights. -/
theorem PassSpec.sameWeights (hfit : GridFits n) (hn : 0 < n) (h : WindowOk n window batch_mask)
    (hr : AtPass cub (sums_of cub window) n batch_mask off_batch_node_n d k r)
    (hs : PassSpec (sums_of cub window) n batch_mask r r')
    (hno : NoCollision cub n window batch_mask r) {u v : Fin n} (huv : partition n r' u v) :
    SameWeights (weights window n) (partition n r) u v := by
  obtain ⟨hsum, -⟩ := passKey_eq_iff.1 ((hs.partition_iff hfit).1 huv)
  rcases hr.le_maskPartition hfit hn (hs.le hfit huv) with rfl | ⟨hm, hoff⟩
  · exact SameWeights.refl u
  · by_cases hu : batch_mask u = .IN_BATCH
    · have hv : batch_mask v = .IN_BATCH := hm ▸ hu
      exact hno u v hu hv (by simpa [patched, hu, hv] using hsum)
    · exact sameWeights_of_not_in h _ hu (hm ▸ hu)

/-- **What the loop stops at**: without collisions, the coarsest partition below `maskPartition`
that is stable for the edges of the window. -/
theorem partition_eq_coarsest (hfit : GridFits n) (hn : 0 < n) (h : WindowOk n window batch_mask)
    (hoff : off_batch_node_n = offCount n batch_mask)
    (hcf : CollisionFree cub n window batch_mask off_batch_node_n d)
    (hloop : refine_loop cub (sums_of cub window) n batch_mask off_batch_node_n fuel d =
      some r') :
    partition n r' = coarsest (weights window n) (maskPartition n batch_mask) := by
  obtain ⟨k, -, r, hr, hb, ha⟩ := doWhile_eq_some_iff.1 hloop
  have hat : AtPass cub (sums_of cub window) n batch_mask off_batch_node_n d k r := ⟨fuel, hr⟩
  have hspec := hat.spec hfit hn hb
  have hge := coarsest_le_pass hfit hn h hat hb
  have hbase : partition n r' ≤ maskPartition n batch_mask :=
    (hspec.le hfit).trans (hat.le_maskPartition hfit hn)
  refine coarsest_eq hbase ?_ hge
  by_cases hin : ∃ x : Fin n, batch_mask x = .IN_BATCH
  · -- the last pass has not changed the partition
    have heq : partition n r' = partition n r := by
      cases k with
      | succ k => exact (refineLoop cub _ batch_mask _ d fuel hfit hn).partition_eq hr hb ha
      | zero =>
        -- the loop starts with a count that is at most the number of classes
        cases hr
        obtain ⟨x, hx⟩ := hin
        have hcount : nodeT (off_batch_node_n + 1) = classCount (partition n r') := by
          rw [← hspec.count hfit]
          have := hspec.z_unique_n
          simp only [refine_again, ne_eq, decide_eq_false_iff_not, not_not] at ha
          exact this.symm.trans ha
        have hlt := off_lt_classCount x.2 hx
        have hle : nodeT (off_batch_node_n + 1) ≤ offCount n batch_mask + 1 :=
          hoff ▸ Nat.mod_le _ _
        rw [partition_init hfit]
        exact eq_of_le_of_classCount_le hbase (by omega)
    intro u v huv
    rw [heq]
    exact hspec.sameWeights hfit hn h hat (hcf k r hat) huv
  · -- no node has an edge in the window
    intro u v _
    exact sameWeights_of_not_in h _ (fun hu => hin ⟨u, hu⟩) fun hv => hin ⟨v, hv⟩

end Partition

end Rbsc.Gpu
