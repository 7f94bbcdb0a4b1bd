import Rbsc.Host.Lumping

/-!
# Runs whose grid has wrapped

From `2 ^ 32 - 255` nodes on, the grid of the node kernels is computed to zero blocks, and a run
works on what the device holds.  With labels that increase and truths that add up to `2 ^ 32 - 1`,
every refinement stops after two passes with the labels as they were (`refine_loop_held`), so that
the printed count may be wrong (`wrapped_not_exact`) and a round need not be a lumping
(`wrapped_not_lumping`).
-/

namespace Rbsc.Host

open Arrays DoWhile Gpu Labelling Lumping DenseRank StableSort

/-- The labels are `f`, which increases, and the truths add up to `2 ^ 32 - 1`. -/
structure Held (n : ℕ) (f : ℕ → Word) (d : Device) : Prop where
  d_w : ∀ v < n, d.d_w v = f v
  truths : (toList n d.d_truths).sum = 2 ^ 32 - 1
  mono : ∀ u v, u ≤ v → v < n → (f u).toNat ≤ (f v).toNat
  small : ∀ v < n, (f v).toNat < 2 ^ 32

/-- All labels are zero. -/
abbrev Blank (n : ℕ) (d : Device) : Prop := Held n (fun _ => 0) d

section Pass

variable {cub : Cub} {sums : Sums} {n : ℕ} {batch_mask : Arr Mask} {off fuel : ℕ} {d : Device}
  {f : ℕ → Word} {r r' : Refine}

/-- A sort leaves keys that increase as they are. -/
theorem store_sorted {bits : ℕ} {l : List (Word × ℕ)}
    (hl : l.Pairwise fun p q => p.1.toNat ≤ q.1.toNat) (hb : ∀ p ∈ l, p.1.toNat < 2 ^ bits)
    (a : Arr Word) {i : ℕ} (hi : i < l.length) :
    store ((cub.sortPairs bits l).map Prod.fst) a i = l[i].1 := by
  have hst := cub.sortPairs_stable bits l
  have hlen : (cub.sortPairs bits l).length = l.length := hst.perm.length_eq
  have hkeys := hst.map_key_eq (hl.imp_of_mem fun hp hq h => by
    rwa [Nat.mod_eq_of_lt (hb _ hp), Nat.mod_eq_of_lt (hb _ hq)])
  have hi' : i < (cub.sortPairs bits l).length := hlen ▸ hi
  rw [store_of_lt _ (by simpa using hi'), List.getElem_map]
  have hkey : (cub.sortPairs bits l)[i].1.toNat % 2 ^ bits = l[i].1.toNat % 2 ^ bits := by
    have := List.getElem_of_eq hkeys (i := i) (by simpa using hi')
    simpa using this
  rw [Nat.mod_eq_of_lt (hb _ (hst.perm.mem_iff.1 (List.getElem_mem hi'))),
    Nat.mod_eq_of_lt (hb _ (List.getElem_mem hi))] at hkey
  exact BitVec.toNat_inj.1 hkey

/-- The labels, paired with anything, are in order. -/
theorem pairs_sorted {x : ℕ → Word} {y : ℕ → ℕ} (hd : Held n f d) (hx : ∀ i < n, x i = f i) :
    ((List.range n).map fun i => (x i, y i)).Pairwise (fun p q => p.1.toNat ≤ q.1.toNat) ∧
      ∀ p ∈ (List.range n).map fun i => (x i, y i), p.1.toNat < 2 ^ 32 := by
  constructor
  · rw [List.pairwise_map]
    refine List.Pairwise.imp_of_mem (fun {i j} hi hj hij => ?_) List.pairwise_lt_range
    dsimp only
    rw [hx i (List.mem_range.1 hi), hx j (List.mem_range.1 hj)]
    exact hd.mono i j (Nat.le_of_lt hij) (List.mem_range.1 hj)
  · intro p hp
    obtain ⟨i, hi, rfl⟩ := List.mem_map.1 hp
    rw [hx i (List.mem_range.1 hi)]
    exact hd.small i (List.mem_range.1 hi)

/-- With zero blocks, `classify` sorts the labels, and leaves them in `d_z`. -/
theorem classify_held (hn : n + 1 < 2 ^ 32) (hw : ¬ GridFits n) (hd : Held n f d) {v : ℕ}
    (hv : v < n) : (classify cub n batch_mask d).d_z v = f v := by
  have ht := threads_wrapped (Nat.lt_of_succ_lt hn) hw
  unfold classify
  dsimp only
  rw [reorder, ht, scatter_zero]
  -- the second sort finds what the first one has stored
  have hbuf : ∀ (y : ℕ → ℕ) (a z : Arr Word) (idx : Arr ℕ), ∀ i < n,
      gather (node_grid n) idx z (store ((cub.sortPairs 32
        ((List.range n).map fun i => (d.d_w i, y i))).map Prod.fst) a) n i = f i :=
    fun y a z idx i hi => by
      obtain ⟨h₁, h₂⟩ := pairs_sorted (y := y) hd hd.d_w
      rw [gather, ht]
      change store _ _ i = _
      rw [store_sorted h₁ h₂ _ (by simpa using hi)]
      simpa using hd.d_w i hi
  refine (store_sorted (pairs_sorted hd (hbuf _ _ _ _)).1 (fun p hp => ?_) _
    (by simpa using hv)).trans ?_
  · exact ((pairs_sorted hd (hbuf _ _ _ _)).2 p hp).trans (by decide)
  · simpa using hbuf _ _ _ _ v hv

/-- **A pass with zero blocks** counts zero classes, and leaves the labels as they are. -/
theorem pass_held (cub : Cub) (sums : Sums) (batch_mask : Arr Mask) (fuel : ℕ)
    (hn : n + 1 < 2 ^ 32) (h0 : 0 < n) (hw : ¬ GridFits n) (hd : Held n f r.dev) :
    ∃ r', pass cub sums n batch_mask (fuel + 1) r = some r' ∧ Held n f r'.dev ∧
      r'.z_unique_n = r.new_z_unique_n ∧ r'.new_z_unique_n = 0 := by
  have hd' : Held n f (sums r.it r.dev) := by
    refine ⟨?_, ?_, hd.mono, hd.small⟩
    · rw [sums.keeps]; exact hd.d_w
    · rw [sums.keeps_truths]; exact hd.truths
  set c := classify cub n batch_mask (sums r.it r.dev) with hc
  have htr : c.d_truths = r.dev.d_truths := by
    rw [hc, classify_wrapped hn hw, sums.keeps_truths]
  have hcount : nodeT (c.d_cumsum (n - 1) + 1) = 0 := by
    have hcs : c.d_cumsum (n - 1) = 2 ^ 32 - 1 := by
      change store (cub.inclusiveSum (toList n c.d_truths)) _ (n - 1) = _
      rw [htr, cub.inclusiveSum_eq, store_of_lt _ (by simp; omega), List.getElem_map,
        List.getElem_range, Nat.sub_add_cancel h0, List.take_of_length_le (by simp), hd.truths]
      rfl
    rw [hcs]
    rfl
  -- the retry loop finds its count in the first turn
  obtain ⟨t, ht⟩ : ∃ t, retry_body cub n { dev := c, it := r.it, w_unique_n := 0 } = some t :=
    ⟨_, rfl⟩
  have hretry : retry cub n (nodeT (c.d_cumsum (n - 1) + 1)) (fuel + 1)
      { dev := c, it := r.it, w_unique_n := 0 } = some t := by
    rw [retry, doWhile, ht, Option.bind_some, retry_wrapped (Nat.lt_of_succ_lt hn) hw ht, hcount]
    simp
  refine ⟨_, congrArg (Option.map _) hretry, ⟨fun v hv => ?_, ?_, hd.mono, hd.small⟩, rfl, hcount⟩
  · cases ht
    exact classify_held hn hw hd' hv
  · cases ht
    change (toList n c.d_truths).sum = _
    rw [htr, hd.truths]

theorem refine_init_held (batch_mask : Arr Mask) (off : ℕ) (hn : n + 1 < 2 ^ 32)
    (hw : ¬ GridFits n) (hd : Held n f d) : Held n f (refine_init n batch_mask off d).dev := by
  have hinit : (refine_init n batch_mask off d).dev = d := by
    change ({ d with d_w := init_partition (node_grid n) n batch_mask d.d_w } : Device) = d
    rw [init_partition, threads_wrapped (Nat.lt_of_succ_lt hn) hw]
    rfl
  rw [hinit]
  exact hd

/-- **A refinement with zero blocks** stops after at most two passes. -/
theorem refine_loop_held (cub : Cub) (sums : Sums) (batch_mask : Arr Mask) (off fuel : ℕ)
    (hn : n + 1 < 2 ^ 32) (h0 : 0 < n) (hw : ¬ GridFits n) (hd : Held n f d) :
    ∃ r, refine_loop cub sums n batch_mask off (fuel + 2) d = some r := by
  obtain ⟨r₁, hr₁, hd₁, -, hn₁⟩ := pass_held cub sums batch_mask (fuel + 1) hn h0 hw
    (refine_init_held batch_mask off hn hw hd)
  obtain ⟨r₂, hr₂, -, hz₂, hn₂⟩ := pass_held cub sums batch_mask (fuel + 1) hn h0 hw hd₁
  cases ha : refine_again r₁ with
  | false => exact ⟨r₁, doWhile_eq_some_iff.2 ⟨0, by omega, _, .start, hr₁, ha⟩⟩
  | true =>
    have ha₂ : refine_again r₂ = false := by simp [refine_again, hz₂, hn₁, hn₂]
    exact ⟨r₂, doWhile_eq_some_iff.2 ⟨1, by omega, r₁, .next .start hr₁ ha, hr₂, ha₂⟩⟩

/-- A refinement stops with the labels it starts with. -/
theorem Held.refine (hn : n + 1 < 2 ^ 32) (h0 : 0 < n) (hw : ¬ GridFits n) (hd : Held n f d)
    (h : refine_loop cub sums n batch_mask off fuel d = some r') : Held n f r'.dev := by
  have hstep : ∀ r r', Held n f r.dev → pass cub sums n batch_mask fuel r = some r' →
      Held n f r'.dev := fun r r' hr hp => by
    cases fuel with
    | zero =>
      have hp : (none : Option Refine) = some r' := hp
      cases hp
    | succ fuel =>
      obtain ⟨r'', hr'', hb, -⟩ := pass_held cub sums batch_mask fuel hn h0 hw hr
      cases hp.symm.trans hr''
      exact hb
  refine doWhile_post (I := fun _ r => Held n f r.dev) (P := fun r => Held n f r.dev) h
    (fun hr => ?_) fun _ r r' _ hI hb _ => hstep r r' hI hb
  exact hr.inv (I := fun _ r => Held n f r.dev) (refine_init_held batch_mask off hn hw hd)
    fun _ r r' _ hI hb _ => hstep r r' hI hb

end Pass

/-! ## Rounds from a blank device -/

/-- The devices before the batches are blank. -/
abbrev blankDevice (n : ℕ) : ℕ → Device → Prop := fun _ d => Blank n d

section Round

variable {cub : Cub} {sums : SumsOf} {max fuel : ℕ} {s s' : State}

theorem blank_localLabel {n : ℕ} {d : Device} (hd : Blank n d) {v : ℕ} (hv : v < n) :
    localLabel d.d_w v = 0 := by
  rw [localLabel, hd.d_w v hv]
  rfl

theorem run_batches_blank {n : ℕ} {edges : List Edge} (hn : n + 1 < 2 ^ 32) (h0 : 0 < n)
    (hw : ¬ GridFits n) {b : Batches} (hb : Blank n b.dev) : ∀ m b',
      run_batches cub sums max n edges fuel m b = some b' → Blank n b'.dev := by
  intro m
  induction m with
  | zero =>
    intro b' h
    cases h
    exact hb
  | succ m ih =>
    intro b' h
    rw [run_batches_succ] at h
    obtain ⟨b₁, hb₁, hrun⟩ := Option.bind_eq_some_iff.1 h
    unfold run_batch at hrun
    cases hwin : select_window max n edges m with
    | none =>
      rw [hwin] at hrun
      cases hrun
      exact ih _ hb₁
    | some win =>
      rw [hwin] at hrun
      obtain ⟨r, hr, rfl⟩ := Option.map_eq_some_iff.1 hrun
      exact (ih _ hb₁).refine hn h0 hw hr

theorem run_batches_blank_returns (cub : Cub) (sums : SumsOf) (max : ℕ) {n : ℕ}
    (edges : List Edge) (fuel : ℕ) (hn : n + 1 < 2 ^ 32) (h0 : 0 < n) (hw : ¬ GridFits n)
    {b : Batches} (hb : Blank n b.dev) :
    ∀ m, ∃ b', run_batches cub sums max n edges (fuel + 2) m b = some b'
  | 0 => ⟨b, rfl⟩
  | m + 1 => by
    obtain ⟨b₁, hb₁⟩ := run_batches_blank_returns cub sums max edges fuel hn h0 hw hb m
    rw [run_batches_succ, hb₁, Option.bind_some, run_batch]
    cases select_window max n edges m with
    | none => exact ⟨b₁, rfl⟩
    | some win =>
      obtain ⟨r, hr⟩ := refine_loop_held cub (batchSums sums n edges m win) win.batch_mask
        win.off_batch_node_n fuel hn h0 hw (run_batches_blank hn h0 hw hb m b₁ hb₁)
      dsimp only
      rw [hr]
      exact ⟨_, rfl⟩

/-- **A round from a blank device** puts the nodes of every batch together. -/
theorem round_blank (hn : s.new_node_n + 1 < 2 ^ 32) (h0 : 0 < s.new_node_n)
    (hw : ¬ GridFits s.new_node_n) (hgr : Grouped s.edges) (hne : s.edges ≠ []) (hmax : 1 ≤ max)
    (hd : Blank s.new_node_n s.dev) (h : round cub sums max fuel s = some s') :
    s'.node_n = s.new_node_n ∧ s'.batches = batch_count s.edges.length max ∧
      ∃ key : ℕ → NodeKey, Labelled s.new_node_n key {v | v < s.new_node_n} s'.w s'.new_node_n ∧
        ∀ k < batch_count s.edges.length max, ∀ v < s.new_node_n,
          InBatch (windows max s.new_node_n s.edges) k v → key v = .inl (k, 0) := by
  have hstarts : StartsIn cub sums max (blankDevice s.new_node_n) s := fun fuel k _ b hb =>
    run_batches_blank hn h0 hw (b := batches_init s) hd k b hb
  have hsmall : SmallParts cub sums max s.new_node_n s.edges (blankDevice s.new_node_n) :=
    fun k win _ fuel d r hd hr v hv => by
      rw [blank_localLabel (hd.refine hn h0 hw hr) hv]
      exact h0
  obtain ⟨h₁, h₂, ⟨part, href, hlab⟩, -⟩ := round_spec (by omega) hgr hne hmax hstarts hsmall h
  refine ⟨h₁, h₂, _, hlab, fun k hk v hv hin => ?_⟩
  obtain ⟨win, hwin, -⟩ := id hin
  obtain ⟨fuel', d, r, hd, hr, hp⟩ := href k hk win hwin
  rw [nodeKey_of_inBatch (disjoint_windows hgr hmax) hv hk hin, hp,
    blank_localLabel (hd.refine hn h0 hw hr) hv]

theorem round_blank_returns (cub : Cub) (sums : SumsOf) (max fuel : ℕ)
    (hn : s.new_node_n + 1 < 2 ^ 32) (h0 : 0 < s.new_node_n) (hw : ¬ GridFits s.new_node_n)
    (hd : Blank s.new_node_n s.dev) : ∃ s', round cub sums max (fuel + 2) s = some s' := by
  obtain ⟨b, hb⟩ := run_batches_blank_returns cub sums max s.edges fuel hn h0 hw
    (b := batches_init s) hd (batch_count s.edges.length max)
  exact ⟨_, congrArg (Option.map _) hb⟩

end Round

/-! ## Two runs -/

/-- A device with zero labels, on which the first truth is `2 ^ 32 - 1`. -/
def leftDevice : Device := { zeroDevice with d_truths := (Arr.const 0).set 0 (2 ^ 32 - 1) }

theorem blank_leftDevice {n : ℕ} (h0 : 0 < n) : Blank n leftDevice := by
  refine ⟨fun _ _ => rfl, ?_, fun _ _ _ _ => le_rfl, fun _ _ => by decide⟩
  obtain ⟨m, rfl⟩ : ∃ m, n = m + 1 := ⟨n - 1, by omega⟩
  have hrest : (((List.range m).map Nat.succ).map leftDevice.d_truths).sum = 0 :=
    List.sum_eq_zero fun x hx => by
      obtain ⟨i, hi, rfl⟩ := List.mem_map.1 hx
      obtain ⟨j, -, rfl⟩ := List.mem_map.1 hi
      exact Arr.set_of_ne _ _ (Nat.succ_ne_zero j)
  rw [toList, List.range_succ_eq_map, List.map_cons, List.sum_cons, hrest]
  exact congrArg (· + 0) (Arr.set_self _ _ _)

theorem wideGraph_input : WeightedInput wideGraph where
  node_pos := by decide
  nonempty := by decide
  ids := by decide
  grouped := by decide
  pos := by decide
  total := by decide

/-- **The flag is set and the count is wrong**: the run ends with one class. -/
theorem wrapped_not_exact : WeightedInput wideGraph ∧ wideGraph.node_n + 1 < 2 ^ 32 ∧
    CollisionFreeRun Cub.reference rbsc_extra 1 wideGraph leftDevice ∧
    ∃ s, rbsc Cub.reference (device_sums Cub.reference) rbsc_extra 1 wideGraph leftDevice 2 =
      some s ∧ done s = 1 ∧ s.new_node_n ≠ beClasses wideGraph := by
  have hn : wideGraph.node_n + 1 < 2 ^ 32 := by decide
  have h0 : 0 < wideGraph.node_n := by decide
  have hw : ¬ GridFits wideGraph.node_n := by decide
  refine ⟨wideGraph_input, hn, collisionFreeRun_one _ _ _ _, ?_⟩
  obtain ⟨s, hs⟩ := round_blank_returns (s := init wideGraph leftDevice) Cub.reference
    (device_sums Cub.reference) 1 0 hn h0 hw (blank_leftDevice h0)
  obtain ⟨-, hbat, key, hlab, hkey⟩ := round_blank hn h0 hw wideGraph_input.grouped
    wideGraph_input.nonempty le_rfl (blank_leftDevice h0) hs
  have hone : s.batches = 1 := hbat
  have hagain : again rbsc_extra s = false := by simp [again, hone]
  refine ⟨s, doWhile_eq_some_iff.2 ⟨0, by omega, _, .start, hs, hagain⟩, by simp [done, hone],
    fun hcount => ?_⟩
  -- all nodes have the key of batch `0`
  have hall : ∀ v < wideGraph.node_n, key v = .inl (0, 0) := fun v hv =>
    hkey 0 (by decide) v hv (inBatch_single wideGraph_input.grouped (by decide) le_rfl hv)
  have hle : s.new_node_n ≤ 1 := by
    by_contra hgt
    obtain ⟨u, hu, hu0⟩ := hlab.onto 0 (by omega)
    obtain ⟨v, hv, hv1⟩ := hlab.onto 1 (by omega)
    have := (hlab.eq_iff u hu v hv).2 ((hall u hu).trans (hall v hv).symm)
    omega
  -- but node `0` has an edge and node `1` has none
  have hcard : Nat.card (Quotient (coarsestBE wideGraph)) ≤ 1 := by
    rw [hcount] at hle
    exact hle
  have hsub : Subsingleton (Quotient (coarsestBE wideGraph)) :=
    Finite.card_le_one_iff_subsingleton.1 hcard
  have hrel : coarsestBE wideGraph ⟨0, by decide⟩ ⟨1, by decide⟩ :=
    Quotient.exact (hsub.elim _ _)
  have hsrc := isSource_of_sameWeights wideGraph_input.ids wideGraph_input.pos
    (coarsest_stable _ _ _ _ hrel) ⟨⟨0, 1, 1⟩, by decide, rfl⟩
  exact absurd hsrc (by decide)

/-- Two edges, among `2 ^ 32 - 2` nodes. -/
def wideGraph₂ : Graph := ⟨2 ^ 32 - 2, [⟨0, 1, 1⟩, ⟨2, 3, 1⟩]⟩

theorem wideGraph₂_input : WeightedInput wideGraph₂ where
  node_pos := by decide
  nonempty := by decide
  ids := by decide
  grouped := by decide
  pos := by decide
  total := by decide

/-- In batches of one edge, nodes `0` and `1` are in the first batch. -/
theorem wideGraph₂_inBatch {v : ℕ} (hv : v = 0 ∨ v = 1) :
    InBatch (windows 1 wideGraph₂.node_n wideGraph₂.edges) 0 v := by
  have hraw : rawStart 1 0 < wideGraph₂.edges.length := by decide
  have hvn : v < wideGraph₂.node_n := by rcases hv with rfl | rfl <;> decide
  have hc0 : Cut wideGraph₂.edges 0 := Or.inl rfl
  have hc1 : Cut wideGraph₂.edges 1 := Or.inr (Or.inr (by decide))
  cases hwin : windows 1 wideGraph₂.node_n wideGraph₂.edges 0 with
  | none =>
    exact absurd hc1 (select_window_none hraw le_rfl hwin (a := 0) (b := 1) (by decide) (by decide)
      (by decide) hc0)
  | some win =>
    obtain ⟨-, -, hend, -, -, hmin, hlast, -⟩ := select_window_some hraw le_rfl hwin
    have hspec := windowSpec_of_some wideGraph₂_input.grouped le_rfl (by decide) hwin
    have hstart : win.batch_start = 0 := by
      by_contra hne
      exact hmin 0 (by decide) (by omega) hc0
    have hend : win.batch_end = 1 := by
      have hraw1 : rawEnd 1 wideGraph₂.edges 0 = 1 := by decide
      rw [hraw1] at hend
      by_contra hne
      exact hlast 1 (by omega) (by decide) hc1
    refine ⟨win, hwin, ?_⟩
    rcases hv with rfl | rfl
    · rw [(hspec.in_iff 0 hvn).2 (by rw [hstart, hend]; decide)]
      decide
    · rw [(hspec.dangling_iff 1 hvn).2 ⟨rfl, by decide⟩]
      decide

/-- **A round with two batches that is no lumping**: it puts node `0`, which has an edge, and node
`1`, which has none, together. -/
theorem wrapped_not_lumping : WeightedInput wideGraph₂ ∧ wideGraph₂.node_n + 1 < 2 ^ 32 ∧
    CollisionFreeRun Cub.reference rbsc_extra 1 wideGraph₂ leftDevice ∧
    ∃ s q, Composition Cub.reference rbsc_extra 1 wideGraph₂ leftDevice 1 s q ∧ 1 < s.batches ∧
      ¬ IsLumping wideGraph₂ s q := by
  have hn : wideGraph₂.node_n + 1 < 2 ^ 32 := by decide
  have h0 : 0 < wideGraph₂.node_n := by decide
  have hw : ¬ GridFits wideGraph₂.node_n := by decide
  refine ⟨wideGraph₂_input, hn, collisionFreeRun_one _ _ _ _, ?_⟩
  obtain ⟨s, hs⟩ := round_blank_returns (s := init wideGraph₂ leftDevice) Cub.reference
    (device_sums Cub.reference) 1 0 hn h0 hw (blank_leftDevice h0)
  obtain ⟨-, hbat, key, hlab, hkey⟩ := round_blank hn h0 hw wideGraph₂_input.grouped
    wideGraph₂_input.nonempty le_rfl (blank_leftDevice h0) hs
  have hbat : s.batches = 2 := hbat
  refine ⟨s, _, .next .start ⟨0, .start⟩ hs, by omega, fun hl => ?_⟩
  have hlt0 : 0 < wideGraph₂.node_n := by decide
  have hlt1 : 1 < wideGraph₂.node_n := by decide
  have hw01 : s.w 0 = s.w 1 := (hlab.eq_iff 0 hlt0 1 hlt1).2
    ((hkey 0 (by decide) 0 hlt0 (wideGraph₂_inBatch (Or.inl rfl))).trans
      (hkey 0 (by decide) 1 hlt1 (wideGraph₂_inBatch (Or.inr rfl))).symm)
  have hsrc := isSource_of_sameWeights wideGraph₂_input.ids wideGraph₂_input.pos
    (hl.stable ⟨0, hlt0⟩ ⟨1, hlt1⟩ hw01) ⟨⟨0, 1, 1⟩, by decide, rfl⟩
  exact absurd hsrc (by decide : ¬ IsSource wideGraph₂.edges 1)

end Rbsc.Host
