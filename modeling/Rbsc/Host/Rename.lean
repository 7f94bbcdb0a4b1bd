import Rbsc.Host.Lumping

/-!
# Rounds on renamed nodes

With the nodes renamed and the edges in the same order, a round selects the same windows
(`windows_rename`), the coarsest partitions of the windows are the renamed ones
(`window_coarsest_rename`), and so two rounds without collisions give labels that differ by a
renaming, whatever hashes, orders of ties and label numbers they have had
(`RoundSpec.exists_renaming`).
-/

namespace Rbsc.Host

open Arrays Gpu Labelling Lumping

variable {n : ℕ} {τ : ℕ → ℕ} {edges : List Edge}

/-! ## Edges -/

theorem edgeAt_rename {i : ℕ} (hi : i < edges.length) :
    edgeAt (edges.map (Edge.rename τ)) i = (edgeAt edges i).rename τ := by
  rw [edgeAt_eq (by simpa using hi), edgeAt_eq hi, List.getElem_map]

theorem startAt_rename {i : ℕ} (hi : i < edges.length) :
    startAt (edges.map (Edge.rename τ)) i = τ (startAt edges i) :=
  congrArg Edge.edge_start (edgeAt_rename hi)

theorem startAt_lt (hids : IdsBelow n edges) {i : ℕ} (hi : i < edges.length) :
    startAt edges i < n := by
  rw [startAt_eq hi]
  exact (hids _ (List.getElem_mem hi)).1

theorem startAt_rename_eq_iff (hτ : IsPerm n τ) (hids : IdsBelow n edges) {i j : ℕ}
    (hi : i < edges.length) (hj : j < edges.length) :
    startAt (edges.map (Edge.rename τ)) i = startAt (edges.map (Edge.rename τ)) j ↔
      startAt edges i = startAt edges j := by
  rw [startAt_rename hi, startAt_rename hj]
  exact ⟨hτ.inj _ (startAt_lt hids hi) _ (startAt_lt hids hj), congrArg τ⟩

theorem idsBelow_rename (hτ : IsPerm n τ) (hids : IdsBelow n edges) :
    IdsBelow n (edges.map (Edge.rename τ)) := by
  intro e he
  obtain ⟨f, hf, rfl⟩ := List.mem_map.1 he
  exact ⟨hτ.maps _ (hids f hf).1, hτ.maps _ (hids f hf).2⟩

theorem grouped_rename (hτ : IsPerm n τ) (hids : IdsBelow n edges) (hgr : Grouped edges) :
    Grouped (edges.map (Edge.rename τ)) := by
  intro k hk j hj i hi hik
  rw [List.length_map] at hk
  rw [startAt_rename_eq_iff hτ hids (by omega) hk] at hik ⊢
  exact hgr k hk j hj i hi hik

/-- The weight between two nodes is that between their new names. -/
theorem edgeWeight_rename (hτ : IsPerm n τ) (hids : IdsBelow n edges) {u v : ℕ} (hu : u < n)
    (hv : v < n) : edgeWeight (edges.map (Edge.rename τ)) (τ u) (τ v) = edgeWeight edges u v := by
  induction edges with
  | nil => rfl
  | cons e l ih =>
    have he := hids e (List.mem_cons_self ..)
    rw [List.map_cons, edgeWeight_cons, edgeWeight_cons,
      ih fun f hf => hids f (List.mem_cons_of_mem _ hf)]
    have hstart : (e.rename τ).edge_start = τ u ↔ e.edge_start = u :=
      ⟨hτ.inj _ he.1 _ hu, congrArg τ⟩
    have hend : (e.rename τ).edge_end = τ v ↔ e.edge_end = v :=
      ⟨hτ.inj _ he.2 _ hv, congrArg τ⟩
    simp only [hstart, hend]
    rfl

/-! ## Windows -/

/-- Two scans in step. -/
structure SameScan (n : ℕ) (τ : ℕ → ℕ) (s s' : Scan) : Prop where
  new_batch_start : s'.new_batch_start = s.new_batch_start
  new_batch_end : s'.new_batch_end = s.new_batch_end
  batch_mask : ∀ v < n, s'.batch_mask (τ v) = s.batch_mask v

/-- One write to each of two masks. -/
theorem set_rename {m m' : Arr Mask} (hτ : IsPerm n τ) (hids : IdsBelow n edges)
    (h : ∀ v < n, m' (τ v) = m v) (x : Mask) {i : ℕ} (hi : i < edges.length) :
    ∀ v < n, m'.set (startAt (edges.map (Edge.rename τ)) i) x (τ v) =
      m.set (startAt edges i) x v := by
  intro v hv
  rw [startAt_rename hi, Arr.set_apply, Arr.set_apply, h v hv]
  exact if_congr ⟨hτ.inj _ hv _ (startAt_lt hids hi), congrArg τ⟩ rfl rfl

theorem SameScan.step (hτ : IsPerm n τ) (hids : IdsBelow n edges) {s s' : Scan}
    (h : SameScan n τ s s') {i : ℕ} (hi : i < edges.length) :
    SameScan n τ (scan_step edges s i) (scan_step (edges.map (Edge.rename τ)) s' i) := by
  have hne : startAt (edges.map (Edge.rename τ)) (i - 1) ≠ startAt (edges.map (Edge.rename τ)) i ↔
      startAt edges (i - 1) ≠ startAt edges i :=
    (startAt_rename_eq_iff hτ hids (by omega) hi).not
  refine ⟨?_, ?_, fun v hv => set_rename hτ hids h.batch_mask .IN_BATCH hi v hv⟩
  · simp only [scan_step, hne, h.new_batch_start]
  · simp only [scan_step, hne, h.new_batch_start, h.new_batch_end]

theorem scan_rename (hτ : IsPerm n τ) (hids : IdsBelow n edges) (batch lo : ℕ) {hi : ℕ}
    (hhi : hi ≤ edges.length) :
    SameScan n τ (scan n edges batch lo hi) (scan n (edges.map (Edge.rename τ)) batch lo hi) := by
  refine List.foldl_rel ⟨rfl, rfl, fun v hv => ?_⟩ fun i hmem s s' h =>
    h.step hτ hids (by rw [List.mem_range'_1] at hmem; omega)
  rw [fill_of_lt _ _ (hτ.maps v hv), fill_of_lt _ _ hv]

theorem mark_off_rename {m m' : Arr Mask} (hτ : IsPerm n τ) (hids : IdsBelow n edges)
    (h : ∀ v < n, m' (τ v) = m v) {lo hi : ℕ} (hhi : hi ≤ edges.length) :
    ∀ v < n, mark_off (edges.map (Edge.rename τ)) lo hi m' (τ v) = mark_off edges lo hi m v :=
  List.foldl_rel (r := fun m m' : Arr Mask => ∀ v < n, m' (τ v) = m v) h
    fun i hmem _ _ h => set_rename hτ hids h .OFF_BATCH (by rw [List.mem_range'_1] at hmem; omega)

/-- The windows have the same edges, and a node and its new name the same mask. -/
structure SameWindow (n : ℕ) (τ : ℕ → ℕ) (win win' : Window) : Prop where
  batch_start : win'.batch_start = win.batch_start
  batch_end : win'.batch_end = win.batch_end
  batch_mask : ∀ v < n, win'.batch_mask (τ v) = win.batch_mask v

/-- **The windows of a round do not see names.** -/
theorem windows_rename {max : ℕ} (hτ : IsPerm n τ) (hids : IdsBelow n edges) {k : ℕ}
    (hk : rawStart max k < edges.length) (hmax : 1 ≤ max) :
    Option.Rel (SameWindow n τ) (windows max n edges k)
      (windows max n (edges.map (Edge.rename τ)) k) := by
  have hraw : rawEnd max (edges.map (Edge.rename τ)) k = rawEnd max edges k := by
    rw [rawEnd, rawEnd, List.length_map]
  have hle : rawEnd max edges k ≤ edges.length := Nat.min_le_left _ _
  have hlt := raw_lt hk hmax
  have hscan := scan_rename hτ hids k (rawStart max k) hle
  rw [windows, windows, select_window_eq, select_window_eq, hraw]
  dsimp only
  set s := scan n edges k (rawStart max k) (rawEnd max edges k) with hs
  set s' := scan n (edges.map (Edge.rename τ)) k (rawStart max k) (rawEnd max edges k) with hs'
  have hend : finalEnd (edges.map (Edge.rename τ)) (rawEnd max edges k) s' =
      finalEnd edges (rawEnd max edges k) s := by
    unfold finalEnd
    rw [List.length_map, hscan.new_batch_end]
    refine if_congr ?_ rfl rfl
    rcases hle.lt_or_eq with hlen | hlen
    · exact or_congr_right (startAt_rename_eq_iff hτ hids hlen (by omega)).not
    · exact iff_of_true (Or.inl hlen) (Or.inl hlen)
  rw [hend, hscan.new_batch_start]
  cases hsa : s.new_batch_start with
  | none => exact .none
  | some a =>
    cases heb : finalEnd edges (rawEnd max edges k) s with
    | none => exact .none
    | some b =>
      have ha : a ≤ edges.length := by
        have := (scan_inv n hk).start_some a hsa
        omega
      refine .some ⟨rfl, rfl, ?_⟩
      dsimp only
      rw [List.length_map]
      exact mark_off_rename hτ hids (mark_off_rename hτ hids hscan.batch_mask ha) le_rfl

/-- The batches that are skipped do not depend on names. -/
theorem KernelsFit.rename {max : ℕ} (hτ : IsPerm n τ) (hids : IdsBelow n edges) (hmax : 1 ≤ max)
    (h : KernelsFit max n edges) : KernelsFit max n (edges.map (Edge.rename τ)) := by
  refine h.imp_right fun ⟨hn, hskip⟩ => ⟨hn, fun k hk => ?_⟩
  rw [List.length_map] at hk
  have hrel := windows_rename hτ hids ((lt_batch_count hmax).1 hk) hmax
  rw [hskip k hk] at hrel
  cases hwin : windows max n (edges.map (Edge.rename τ)) k with
  | none => rfl
  | some win =>
    rw [hwin] at hrel
    cases hrel

theorem slice_rename (a b : ℕ) :
    slice (edges.map (Edge.rename τ)) a b = (slice edges a b).map (Edge.rename τ) := by
  rw [slice, slice, List.map_take, List.map_drop]

/-- **The coarsest partition of a window does not see names.** -/
theorem window_coarsest_rename {win win' : Window} (hτ : IsPerm n τ) (hids : IdsBelow n edges)
    (h : SameWindow n τ win win') (u v : Fin n) :
    coarsest (weights (slice (edges.map (Edge.rename τ)) win'.batch_start win'.batch_end) n)
        (maskPartition n win'.batch_mask) (hτ.equiv u) (hτ.equiv v) ↔
      coarsest (weights (slice edges win.batch_start win.batch_end) n)
        (maskPartition n win.batch_mask) u v := by
  rw [h.batch_start, h.batch_end, slice_rename]
  have hslice : IdsBelow n (slice edges win.batch_start win.batch_end) := fun e he =>
    hids e (mem_of_mem_slice he)
  refine coarsest_congr hτ.equiv (fun x y => edgeWeight_rename hτ hslice x.2 y.2)
    (fun x y => ?_) u v
  rw [maskPartition_iff, maskPartition_iff, IsPerm.equiv_val, IsPerm.equiv_val,
    h.batch_mask x x.2, h.batch_mask y y.2, hτ.equiv.injective.eq_iff]

/-! ## The labels of a round -/

section Labels

variable {cub cub' : Cub} {max m m' : ℕ} {w w' : Arr ℕ}

/-- The labels tell a node and another apart exactly when they do so with their new names. -/
theorem RoundSpec.eq_iff_rename (hτ : IsPerm n τ) (hfit : KernelsFit max n edges) (hn : 0 < n)
    (hgr : Grouped edges) (hids : IdsBelow n edges) (hmax : 1 ≤ max)
    (h : RoundSpec cub (device_sums cub) max n edges (batchCollisionFree cub max n edges) w m)
    (h' : RoundSpec cub' (device_sums cub') max n (edges.map (Edge.rename τ))
      (batchCollisionFree cub' max n (edges.map (Edge.rename τ))) w' m') {u v : ℕ} (hu : u < n)
    (hv : v < n) : w' (τ u) = w' (τ v) ↔ w u = w v := by
  have hgr' := grouped_rename hτ hids hgr
  have hids' := idsBelow_rename hτ hids
  obtain ⟨part, href, heq⟩ := h.eq_iff hfit hn hgr hmax
  obtain ⟨part', href', heq'⟩ := h'.eq_iff (hfit.rename hτ hids hmax) hn hgr' hmax
  have hlen : (edges.map (Edge.rename τ)).length = edges.length := List.length_map _
  rw [hlen] at href' heq'
  rw [heq u hu v hv, heq' _ (hτ.maps u hu) _ (hτ.maps v hv)]
  refine or_congr ⟨hτ.inj u hu v hv, congrArg τ⟩ (exists_congr fun k => and_congr_right fun hk => ?_)
  have hrel := windows_rename hτ hids ((lt_batch_count hmax).1 hk) hmax
  -- both partitions are the coarsest ones of their windows
  have hpart : ∀ win win', windows max n edges k = some win →
      windows max n (edges.map (Edge.rename τ)) k = some win' → SameWindow n τ win win' →
      (part' k (τ u) = part' k (τ v) ↔ part k u = part k v) := fun win win' hwin hwin' hsame => by
    have hgrid := hfit.gridFits hmax hwin
    have h₁ := (href k hk).partition_eq hgrid hn hgr hids hmax hk hwin
    have h₂ := (href' k hk).partition_eq hgrid hn hgr' hids' hmax (hlen ▸ hk) hwin'
    have hiff := window_coarsest_rename hτ hids hsame ⟨u, hu⟩ ⟨v, hv⟩
    rw [← h₁, ← h₂] at hiff
    exact hiff
  cases hwin : windows max n edges k with
  | none =>
    rw [hwin] at hrel
    cases hwin' : windows max n (edges.map (Edge.rename τ)) k with
    | none => simp
    | some win' =>
      rw [hwin'] at hrel
      cases hrel
  | some win =>
    rw [hwin] at hrel
    cases hwin' : windows max n (edges.map (Edge.rename τ)) k with
    | none =>
      rw [hwin'] at hrel
      cases hrel
    | some win' =>
      rw [hwin'] at hrel
      cases hrel with
      | some hsame =>
        simp only [Option.some_inj, exists_eq_left', hsame.batch_mask u hu,
          hsame.batch_mask v hv, hpart win win' hwin hwin' hsame]

/-- **Two rounds on renamed nodes** give labels that differ by a renaming. -/
theorem RoundSpec.exists_renaming (hτ : IsPerm n τ) (hfit : KernelsFit max n edges) (hn : 0 < n)
    (hgr : Grouped edges) (hids : IdsBelow n edges) (hmax : 1 ≤ max)
    (h : RoundSpec cub (device_sums cub) max n edges (batchCollisionFree cub max n edges) w m)
    (h' : RoundSpec cub' (device_sums cub') max n (edges.map (Edge.rename τ))
      (batchCollisionFree cub' max n (edges.map (Edge.rename τ))) w' m') :
    m' = m ∧ ∃ σ, IsPerm m σ ∧ ∀ v < n, w' (τ v) = σ (w v) := by
  obtain ⟨part, -, hlab⟩ := id h
  obtain ⟨part', -, hlab'⟩ := id h'
  refine hlab.exists_renaming (hlab'.comp_perm hτ) (fun v hv => hv) (fun v hv => hv)
    fun u hu v hv => ?_
  rw [← hlab.eq_iff u hu v hv, ← hlab'.eq_iff _ (hτ.maps u hu) _ (hτ.maps v hv)]
  exact (h.eq_iff_rename hτ hfit hn hgr hids hmax h' hu hv).symm

end Labels

end Rbsc.Host
