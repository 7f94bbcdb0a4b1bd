import Rbsc.Compare.Classes

/-!
# Renaming the nodes

Both programs commute with a renaming of the nodes and a reordering of the edges: the label of the
new name of a node is the label of the node, in every round of `rsc` and in every pass of `rbsc`
with one batch (`refinement_commutes`).  Node numbers, the order of ties and the order of edges show
in the arrays between, but the labels are ranks of sums, and these do not see them.

* `Renamed`: the other graph;
* `SameState`, `SameRefine`: the states of two runs in step.
-/

namespace Rbsc.Compare

open Arrays DoWhile DenseRank Gpu Host Labelling

/-- `g'` is `g` with the nodes renamed by `σ` and the edges in another order. -/
structure Renamed (σ : ℕ → ℕ) (g g' : Graph) : Prop where
  node_n : g'.node_n = g.node_n
  isPerm : IsPerm g.node_n σ
  edges : g'.edges.Perm (g.edges.map (Edge.rename σ))

section Graph

variable {σ : ℕ → ℕ} {g g' : Graph}

theorem Renamed.ids (h : Renamed σ g g') (hids : IdsBelow g.node_n g.edges) :
    IdsBelow g'.node_n g'.edges := by
  intro e he
  obtain ⟨f, hf, rfl⟩ := List.mem_map.1 (h.edges.mem_iff.1 he)
  rw [h.node_n]
  exact ⟨h.isPerm.maps _ (hids f hf).1, h.isPerm.maps _ (hids f hf).2⟩

theorem Renamed.isSource_iff (h : Renamed σ g g') (hids : IdsBelow g.node_n g.edges) {v : ℕ}
    (hv : v < g.node_n) : IsSource g'.edges (σ v) ↔ IsSource g.edges v := by
  constructor
  · rintro ⟨e, he, hes⟩
    obtain ⟨f, hf, rfl⟩ := List.mem_map.1 (h.edges.mem_iff.1 he)
    exact ⟨f, hf, h.isPerm.inj _ (hids f hf).1 _ hv hes⟩
  · rintro ⟨f, hf, rfl⟩
    exact ⟨f.rename σ, h.edges.mem_iff.2 (List.mem_map_of_mem hf), rfl⟩

/-- **A hash sum does not see names and order.** -/
theorem Renamed.hashSum_eq (h : Renamed σ g g') (hids : IdsBelow g.node_n g.edges)
    {f f' : ℕ → Word} (hf : ∀ y < g.node_n, f' (σ y) = f y) {v : ℕ} (hv : v < g.node_n) :
    hashSum g'.edges f' (σ v) = hashSum g.edges f v := by
  rw [hashSum_perm h.edges]
  have hall : ∀ l : List Edge, IdsBelow g.node_n l →
      hashSum (l.map (Edge.rename σ)) f' (σ v) = hashSum l f v := by
    intro l
    induction l with
    | nil => exact fun _ => rfl
    | cons e l ih =>
      intro hl
      obtain ⟨hs, ht⟩ := hl e (List.mem_cons_self ..)
      rw [List.map_cons, hashSum_cons, hashSum_cons,
        ih fun e he => hl e (List.mem_cons_of_mem _ he)]
      have hiff : σ e.edge_start = σ v ↔ e.edge_start = v :=
        ⟨h.isPerm.inj _ hs _ hv, congrArg σ⟩
      simp only [Edge.rename, hiff, hf _ ht]
  exact hall g.edges hids

end Graph

/-! ## `rsc` -/

section Rsc

variable {σ : ℕ → ℕ} {g g' : Graph}

/-- Two runs of `rsc` in step: the entries of a node in the one are those of its new name in the
other. -/
structure SameState (σ : ℕ → ℕ) (n : ℕ) (s s' : Rsc.State) : Prop where
  w : ∀ v < n, s'.w (σ v) = s.w v
  z : ∀ v < n, s'.z (σ v) = s.z v
  it : s'.it = s.it
  node_n : s'.node_n = s.node_n
  new_node_n : s'.new_node_n = s.new_node_n

theorem SameState.init (h : Renamed σ g g') :
    SameState σ g.node_n (Rsc.init g) (Rsc.init g') where
  w v hv := by
    have hσ : σ v < g'.node_n := h.node_n ▸ h.isPerm.maps v hv
    simp only [Rsc.init, fill_of_lt _ _ hv, fill_of_lt _ _ hσ]
  z _ _ := rfl
  it := rfl
  node_n := h.node_n
  new_node_n := h.node_n

/-- The sums of a round, of a node and of its new name. -/
theorem SameState.sums (hren : Renamed σ g g') (hids : IdsBelow g.node_n g.edges)
    (hgr : Grouped g.edges) (hgr' : Grouped g'.edges) {s s' : Rsc.State}
    (h : SameState σ g.node_n s s') (hash : Word → Word) {v : ℕ} (hv : v < g.node_n) :
    Rsc.sums hash g' s' (σ v) = Rsc.sums hash g s v := by
  rw [Rsc.sums, Rsc.sums, Rsc.spmv_apply _ _ _ _ _ hgr', Rsc.spmv_apply _ _ _ _ _ hgr]
  refine if_congr (hren.isSource_iff hids hv) ?_ (h.z v hv)
  exact hren.hashSum_eq hids (fun y hy => by rw [h.w y hy, h.it]) hv

/-- **A round keeps the runs in step**, whatever orders the two sorts give to ties. -/
theorem SameState.round (hren : Renamed σ g g') (hids : IdsBelow g.node_n g.edges)
    (hgr : Grouped g.edges) (hgr' : Grouped g'.edges) (hn : 1 ≤ g.node_n)
    (hle : g.node_n ≤ 2 ^ 31) (hash : Word → Word) (srt srt' : Rsc.StdSort) {s s' : Rsc.State}
    (h : SameState σ g.node_n s s') :
    SameState σ g.node_n (Rsc.round hash srt g s) (Rsc.round hash srt' g' s') := by
  have hkey : ∀ v < g.node_n, Rsc.wordKey (Rsc.sums hash g' s') (σ v) =
      Rsc.wordKey (Rsc.sums hash g s) v := fun v hv =>
    congrArg BitVec.toNat (h.sums hren hids hgr hgr' hash hv)
  have hn' : 1 ≤ g'.node_n := hren.node_n ▸ hn
  have hle' : g'.node_n ≤ 2 ^ 31 := hren.node_n ▸ hle
  refine ⟨fun v hv => ?_, fun v hv => h.sums hren hids hgr hgr' hash hv, ?_, h.new_node_n, ?_⟩
  · rw [Rsc.round_w hash srt' g' s' hle' (hren.node_n ▸ hren.isPerm.maps v hv),
      Rsc.round_w hash srt g s hle hv, hren.node_n, rank_perm hren.isPerm hkey hv]
  · rw [Rsc.round_it, Rsc.round_it, h.it]
  · rw [Rsc.round_new_node_n hash srt' g' s' hle' hn', Rsc.round_new_node_n hash srt g s hle hn,
      hren.node_n, keyCount_perm hren.isPerm hkey]

/-- `rsc` commutes with the renaming. -/
structure RscCommutes (h : Word → Word) (srt srt' : Rsc.StdSort) (σ : ℕ → ℕ) (g g' : Graph) :
    Prop where
  /-- The runs have the same rounds. -/
  rounds : ∀ k, (∃ s, Rsc.AtRound h srt g k s) ↔ ∃ s', Rsc.AtRound h srt' g' k s'
  /-- A node and its new name have the same label before and after every round. -/
  labels : ∀ k s s', Rsc.AtRound h srt g k s → Rsc.AtRound h srt' g' k s' → ∀ v < g.node_n,
    s'.w (σ v) = s.w v ∧ (Rsc.round h srt' g' s').w (σ v) = (Rsc.round h srt g s).w v
  /-- They end after the same number of rounds, or never, and print the same count. -/
  count : ∀ fuel, (Rsc.rsc h srt' g' fuel).map Rsc.State.new_node_n =
    (Rsc.rsc h srt g fuel).map Rsc.State.new_node_n

theorem map_eq_of_rel {α β γ : Type*} {R : α → β → Prop} {f : α → γ} {f' : β → γ} {a : Option α}
    {b : Option β} (h : Option.Rel R a b) (hf : ∀ x y, R x y → f' y = f x) :
    b.map f' = a.map f := by
  cases h with
  | some h => exact congrArg some (hf _ _ h)
  | none => rfl

theorem rscCommutes (hash : Word → Word) (srt srt' : Rsc.StdSort) (hren : Renamed σ g g')
    (hids : IdsBelow g.node_n g.edges) (hgr : Grouped g.edges) (hgr' : Grouped g'.edges)
    (hn : 1 ≤ g.node_n) (hle : g.node_n ≤ 2 ^ 31) : RscCommutes hash srt srt' σ g g' := by
  have hbody : ∀ s s', SameState σ g.node_n s s' →
      Option.Rel (SameState σ g.node_n) (some (Rsc.round hash srt g s))
        (some (Rsc.round hash srt' g' s')) := fun s s' h =>
    .some (h.round hren hids hgr hgr' hn hle hash srt srt')
  have hagain : ∀ s s', SameState σ g.node_n s s' → Rsc.again s = Rsc.again s' := fun s s' h => by
    rw [Rsc.again, Rsc.again, h.node_n, h.new_node_n]
  have hrel := entered_rel hbody hagain (SameState.init hren)
  refine ⟨fun k => (hrel k).1, fun k s s' hs hs' v hv => ?_, fun fuel => ?_⟩
  · have h := (hrel k).2 s s' hs hs'
    exact ⟨h.w v hv, (h.round hren hids hgr hgr' hn hle hash srt srt').w v hv⟩
  · exact map_eq_of_rel (doWhile_rel hbody hagain fuel (SameState.init hren)) fun _ _ h =>
      h.new_node_n

end Rsc

/-! ## `rbsc` with one batch -/

section Passes

variable {σ : ℕ → ℕ} {g g' : Graph} {batch_mask batch_mask' : Arr Mask}

/-- Two refinements in step. -/
structure SameRefine (σ : ℕ → ℕ) (n : ℕ) (r r' : Refine) : Prop where
  d_w : ∀ v < n, r'.dev.d_w (σ v) = r.dev.d_w v
  small : SmallLabels n r.dev
  it : r'.it = r.it
  z_unique_n : r'.z_unique_n = r.z_unique_n
  new_z_unique_n : r'.new_z_unique_n = r.new_z_unique_n

theorem SameRefine.small' {n : ℕ} {r r' : Refine} (h : SameRefine σ n r r') (hσ : IsPerm n σ) :
    SmallLabels n r'.dev := fun v hv => by
  obtain ⟨u, hu, rfl⟩ := hσ.surj hv
  rw [h.d_w u hu]
  exact h.small u hu

/-- The patched sums and the labels of a pass, of a node and of its new name. -/
theorem SameRefine.passKey (hren : Renamed σ g g') (hids : IdsBelow g.node_n g.edges)
    (hfit : GridFits g.node_n) (hok : WindowOk g.node_n g.edges batch_mask)
    (hok' : WindowOk g'.node_n g'.edges batch_mask')
    (hmask : ∀ v < g.node_n, batch_mask' (σ v) = batch_mask v) (cub cub' : Cub) {r r' : Refine}
    (h : SameRefine σ g.node_n r r') {v : ℕ} (hv : v < g.node_n) :
    Gpu.passKey batch_mask' (sums_of cub' g'.edges r'.it r'.dev) (σ v) =
      Gpu.passKey batch_mask (sums_of cub g.edges r.it r.dev) v := by
  have hσ : σ v < g'.node_n := hren.node_n ▸ hren.isPerm.maps v hv
  have hfit' : GridFits g'.node_n := hren.node_n ▸ hfit
  have hpatched : patched batch_mask' (sums_of cub' g'.edges r'.it r'.dev) (σ v) =
      patched batch_mask (sums_of cub g.edges r.it r.dev) v := by
    unfold patched
    rw [hmask v hv]
    cases hm : batch_mask v with
    | OFF_BATCH => rfl
    | DANGLING => rfl
    | IN_BATCH =>
      have hm' : batch_mask' (σ v) = .IN_BATCH := (hmask v hv).trans hm
      dsimp only
      rw [window_sums_apply cub' hfit' hok' _ _ ((hok'.in_batch_iff _ hσ).1 hm'),
        window_sums_apply cub hfit hok _ _ ((hok.in_batch_iff v hv).1 hm)]
      exact hren.hashSum_eq hids (fun y hy => by rw [h.d_w y hy, h.it]) hv
  have hlabel : (sums_of cub' g'.edges r'.it r'.dev).d_w (σ v) =
      (sums_of cub g.edges r.it r.dev).d_w v := by
    rw [Sums.keeps, Sums.keeps]
    exact h.d_w v hv
  rw [Gpu.passKey, Gpu.passKey, hpatched, hlabel]

/-- **A pass keeps the refinements in step.** -/
theorem SameRefine.pass (hren : Renamed σ g g') (hids : IdsBelow g.node_n g.edges)
    (hfit : GridFits g.node_n) (hn : 1 ≤ g.node_n) (hok : WindowOk g.node_n g.edges batch_mask)
    (hok' : WindowOk g'.node_n g'.edges batch_mask')
    (hmask : ∀ v < g.node_n, batch_mask' (σ v) = batch_mask v) (cub cub' : Cub) (fuel : ℕ)
    {r r' : Refine} (h : SameRefine σ g.node_n r r') :
    Option.Rel (SameRefine σ g.node_n)
      (Gpu.pass cub (sums_of cub g.edges) g.node_n batch_mask fuel r)
      (Gpu.pass cub' (sums_of cub' g'.edges) g'.node_n batch_mask' fuel r') := by
  cases fuel with
  | zero => exact .none
  | succ fuel =>
    have hkey : ∀ v < g.node_n, _ := fun v hv =>
      h.passKey hren hids hfit hok hok' hmask cub cub' hv
    obtain ⟨r₁, hr₁, hspec⟩ := pass_returns cub (sums_of cub g.edges) hfit hn batch_mask fuel
      h.small
    have hsmall' := h.small' hren.isPerm
    rw [← hren.node_n] at hsmall'
    obtain ⟨r₁', hr₁', hspec'⟩ := pass_returns cub' (sums_of cub' g'.edges)
      (hren.node_n ▸ hfit) (hren.node_n ▸ hn : 0 < g'.node_n) batch_mask' fuel hsmall'
    rw [hr₁, hr₁']
    refine .some ⟨fun v hv => ?_, hspec.small hfit, ?_, ?_, ?_⟩
    · rw [hspec'.d_w _ (hren.node_n ▸ hren.isPerm.maps v hv), hspec.d_w v hv, hren.node_n,
        rank_perm hren.isPerm hkey hv]
    · rw [hspec'.it, hspec.it, h.it]
    · rw [hspec'.z_unique_n, hspec.z_unique_n, h.new_z_unique_n]
    · rw [hspec'.new_z_unique_n, hspec.new_z_unique_n, hren.node_n,
        keyCount_perm hren.isPerm hkey]

/-- The first labels of the windows that have all edges. -/
theorem SameRefine.init (hσ : IsPerm g.node_n σ) (hfit : GridFits g.node_n)
    (hnode : g'.node_n = g.node_n) (hmask : ∀ v < g.node_n, batch_mask' (σ v) = batch_mask v)
    (hoff : ∀ v < g.node_n, batch_mask v ≠ .OFF_BATCH) (off : ℕ) (d d' : Device) :
    SameRefine σ g.node_n (refine_init g.node_n batch_mask off d)
      (refine_init g'.node_n batch_mask' off d') where
  d_w v hv := by
    rw [← BitVec.toNat_inj, refine_init_d_w hfit hv, hnode, refine_init_d_w hfit (hσ.maps v hv),
      initLabel, initLabel, hmask v hv]
    cases hm : batch_mask v with
    | OFF_BATCH => exact absurd hm (hoff v hv)
    | DANGLING => rfl
    | IN_BATCH => rfl
  small v hv := by
    have := hfit.lt
    have hle := initLabel_le batch_mask hv
    rw [refine_init_d_w hfit hv]
    omega
  it := rfl
  z_unique_n := rfl
  new_z_unique_n := rfl

theorem SameRefine.again {n : ℕ} {r r' : Refine} (h : SameRefine σ n r r') :
    refine_again r = refine_again r' := by
  rw [refine_again, refine_again, h.z_unique_n, h.new_z_unique_n]

end Passes

/-- The window that has all edges: its mask, and the count it starts with. -/
theorem single_window_mask {max n : ℕ} {edges : List Edge} {win : Window}
    (h : WindowSpec max n edges 0 win) (hoff : ∀ v < n, win.batch_mask v ≠ .OFF_BATCH) :
    (∀ v < n, win.batch_mask v = if IsSource edges v then .IN_BATCH else .DANGLING) ∧
      win.off_batch_node_n = 0 := by
  have hd : ∀ v < n, win.batch_mask v = .DANGLING ↔ ¬ IsSource edges v := fun v hv => by
    rw [h.dangling_iff v hv]
    simp
  refine ⟨fun v hv => ?_, ?_⟩
  · split_ifs with hs
    · cases hm : win.batch_mask v with
      | OFF_BATCH => exact absurd hm (hoff v hv)
      | DANGLING => exact absurd hs ((hd v hv).1 hm)
      | IN_BATCH => rfl
    · exact (hd v hv).2 hs
  · rw [h.off_count, offCount, Finset.card_eq_zero, Finset.filter_eq_empty_iff]
    exact fun v hv => hoff v (Finset.mem_range.1 hv)

/-- The labels of a window that has all nodes are as many as its local labels. -/
theorem label_loop_count {n : ℕ} (hfit : GridFits n) {batch_mask : Arr Mask} {p : Arr Word}
    (hoff : ∀ v < n, batch_mask v ≠ .OFF_BATCH) (hp : ∀ v < n, (p v).toNat < n) {s : Labels}
    (hw : ∀ v < n, s.w v = n) (hs : s.new_node_n = 0) :
    (label_loop n batch_mask p s).new_node_n = keyCount (fun v => (p v).toNat) n := by
  have hlt := hfit.lt
  have hlocal : ∀ v < n, localLabel p v = (p v).toNat := fun v hv => localLabel_eq hfit (hp v hv)
  have h0 : Labelled n (fun v => (Sum.inl (0, localLabel p v) : NodeKey)) ∅ s.w s.new_node_n := by
    rw [hs]
    exact Labelled.empty hw
  have hlab : Labelled n _ (∅ ∪ batchNodes n batch_mask) (label_loop n batch_mask p s).w _ :=
    label_loop_spec (k := 0) (by omega) h0 (fun _ h => h.elim) (fun _ _ => rfl) fun v hv => by
      rw [hlocal v hv]
      exact hp v hv
  have hall : ∀ v < n, v ∈ ∅ ∪ batchNodes n batch_mask := fun v hv => Or.inr ⟨hv, hoff v hv⟩
  rw [← hlab.keyCount_eq hall]
  refine keyCount_eq_of_iff fun u hu v hv => ?_
  rw [hlab.eq_iff u (hall u hu) v (hall v hv), ← hlocal u hu, ← hlocal v hv]
  simp

section Runs

variable {cub cub' : Cub} {sums : SumsOf} {extra extra' : ℕ → ℕ → Bool} {max max' : ℕ}
  {g g' : Graph} {dev dev' : Device} {σ : ℕ → ℕ}

/-- The only batch of a round. -/
theorem round_one_batch {fuel : ℕ} {s : State} (hone : batch_count s.edges.length max = 1) :
    Host.round cub sums max fuel s =
      (run_batch cub sums max s.new_node_n s.edges fuel (batches_init s) 0).map fun b =>
        { node_n := s.new_node_n, new_node_n := b.new_node_n, edges := s.edges, batches := 1,
          w := b.w, dev := b.dev } := by
  simp only [Host.round, hone, run_batches_succ, gt_iff_lt, lt_irrefl, if_false]
  rfl

/-- What the only round prints. -/
theorem single_report (hfit : GridFits g.node_n) (hn : 1 ≤ g.node_n) (hne : g.edges ≠ [])
    (hmax : g.edges.length ≤ max) {win : Window} (hwin : windows max g.node_n g.edges 0 = some win)
    (hoff : ∀ v < g.node_n, win.batch_mask v ≠ .OFF_BATCH) (fuel : ℕ) :
    (Host.round cub sums max fuel (Host.init g dev)).map (fun s => (done s, s.new_node_n)) =
      (refine_loop cub (batchSums sums g.node_n g.edges 0 win) g.node_n win.batch_mask
        win.off_batch_node_n fuel dev).map
          fun r => (1, keyCount (fun v => (r.dev.d_w v).toNat) g.node_n) := by
  have hone := batch_count_eq_one (List.length_pos_iff.2 hne) hmax
  have hwin : select_window max g.node_n g.edges 0 = some win := hwin
  have hbatch : run_batch cub sums max g.node_n g.edges fuel (batches_init (Host.init g dev)) 0 =
      (refine_loop cub (batchSums sums g.node_n g.edges 0 win) g.node_n win.batch_mask
        win.off_batch_node_n fuel dev).map fun r =>
          let l := label_loop g.node_n win.batch_mask r.dev.d_w
            ⟨(batches_init (Host.init g dev)).w, 0, .const 0⟩
          ⟨l.w, l.new_node_n, r.dev⟩ := by
    rw [run_batch, hwin]
    rfl
  rw [round_one_batch hone, Option.map_map]
  change Option.map _ (run_batch cub sums max g.node_n g.edges fuel _ 0) = _
  rw [hbatch, Option.map_map]
  refine Option.map_congr fun r hr => ?_
  have hcount := label_loop_count (s := ⟨(batches_init (Host.init g dev)).w, 0, .const 0⟩) hfit hoff
    (fun v hv => refine_loop_lt hfit hn hr hv) (fun v hv => fill_of_lt _ _ hv) rfl
  exact congrArg (Prod.mk 1) hcount

/-- The passes over the window `win` of the first batch of the input. -/
abbrev firstPass (cub : Cub) (g : Graph) (win : Window) : ℕ → Refine → Option Refine :=
  Gpu.pass cub (batchSums (device_sums cub) g.node_n g.edges 0 win) g.node_n win.batch_mask

abbrev AtFirstPass (cub : Cub) (g : Graph) (win : Window) (dev : Device) : ℕ → Refine → Prop :=
  AtPass cub (batchSums (device_sums cub) g.node_n g.edges 0 win) g.node_n win.batch_mask
    win.off_batch_node_n dev

/-- `rbsc` with one batch commutes with the renaming. -/
structure RbscCommutes (cub cub' : Cub) (extra extra' : ℕ → ℕ → Bool) (max max' : ℕ) (σ : ℕ → ℕ)
    (g g' : Graph) (dev dev' : Device) : Prop where
  /-- The refinements of the windows, which have all edges, have the same passes, and a node and its
  new name have the same label before and after every pass. -/
  passes : ∃ win win', windows max g.node_n g.edges 0 = some win ∧
    windows max' g'.node_n g'.edges 0 = some win' ∧
    slice g.edges win.batch_start win.batch_end = g.edges ∧
    slice g'.edges win'.batch_start win'.batch_end = g'.edges ∧ ∀ k,
      ((∃ r, AtFirstPass cub g win dev k r) ↔ ∃ r', AtFirstPass cub' g' win' dev' k r') ∧
      ∀ r r', AtFirstPass cub g win dev k r → AtFirstPass cub' g' win' dev' k r' →
        (∀ v < g.node_n, r'.dev.d_w (σ v) = r.dev.d_w v) ∧
        ∀ fuel r₁ r₁', firstPass cub g win fuel r = some r₁ →
          firstPass cub' g' win' fuel r' = some r₁' →
          ∀ v < g.node_n, r₁'.dev.d_w (σ v) = r₁.dev.d_w v
  /-- They end with the same flag and the same count, or both do not end. -/
  report : ∀ fuel,
    (rbsc cub' (device_sums cub') extra' max' g' dev' fuel).map (fun s => (done s, s.new_node_n)) =
      (rbsc cub (device_sums cub) extra max g dev fuel).map fun s => (done s, s.new_node_n)

theorem rbscCommutes (cub cub' : Cub) (extra extra' : ℕ → ℕ → Bool) (dev dev' : Device)
    (hren : Renamed σ g g') (hg : Input g) (hgr' : Grouped g'.edges) (hfit : GridFits g.node_n)
    (hmax : g.edges.length ≤ max) (hmax' : g'.edges.length ≤ max') :
    RbscCommutes cub cub' extra extra' max max' σ g g' dev dev' := by
  have hlen : g'.edges.length = g.edges.length := by
    rw [hren.edges.length_eq, List.length_map]
  have hne' : g'.edges ≠ [] := by
    rw [← List.length_pos_iff, hlen]
    exact List.length_pos_iff.2 hg.nonempty
  have hids' := hren.ids hg.ids
  have hfit' : GridFits g'.node_n := hren.node_n ▸ hfit
  have hn' : 1 ≤ g'.node_n := hren.node_n ▸ hg.node_pos
  obtain ⟨win, hwin, hslice, hspec, hoff⟩ :=
    exists_single_window (n := g.node_n) hg.grouped hg.nonempty hmax
  obtain ⟨win', hwin', hslice', hspec', hoff'⟩ :=
    exists_single_window (n := g'.node_n) hgr' hne' hmax'
  obtain ⟨hm, hz⟩ := single_window_mask hspec hoff
  obtain ⟨hm', hz'⟩ := single_window_mask hspec' hoff'
  have hok := hspec.windowOk hg.grouped hg.ids
  have hok' := hspec'.windowOk hgr' hids'
  rw [hslice] at hok
  rw [hslice'] at hok'
  have hmask : ∀ v < g.node_n, win'.batch_mask (σ v) = win.batch_mask v := fun v hv => by
    rw [hm v hv, hm' _ (hren.node_n ▸ hren.isPerm.maps v hv)]
    exact if_congr (hren.isSource_iff hg.ids hv) rfl rfl
  have hsums : batchSums (device_sums cub) g.node_n g.edges 0 win = sums_of cub g.edges := by
    rw [batchSums, hslice]
    rfl
  have hsums' : batchSums (device_sums cub') g'.node_n g'.edges 0 win' =
      sums_of cub' g'.edges := by
    rw [batchSums, hslice']
    rfl
  -- the two refinements run in step
  have hbody : ∀ fuel r r', SameRefine σ g.node_n r r' →
      Option.Rel (SameRefine σ g.node_n) (firstPass cub g win fuel r)
        (firstPass cub' g' win' fuel r') := fun fuel r r' h => by
    rw [firstPass, firstPass, hsums, hsums']
    exact h.pass hren hg.ids hfit hg.node_pos hok hok' hmask cub cub' fuel
  have hagain : ∀ r r', SameRefine σ g.node_n r r' → refine_again r = refine_again r' :=
    fun _ _ h => h.again
  have hinit : SameRefine σ g.node_n
      (refine_init g.node_n win.batch_mask win.off_batch_node_n dev)
      (refine_init g'.node_n win'.batch_mask win'.off_batch_node_n dev') := by
    rw [hz, hz']
    exact SameRefine.init hren.isPerm hfit hren.node_n hmask hoff 0 dev dev'
  have hstep : ∀ k r r', AtFirstPass cub g win dev k r → AtFirstPass cub' g' win' dev' k r' →
      SameRefine σ g.node_n r r' := fun k r r' hr hr' => by
    obtain ⟨fuel, hr⟩ := hr
    obtain ⟨t, ht, h⟩ := hr.rel (hbody fuel) hagain hinit
    rwa [AtPass.unique hr' ⟨fuel, ht⟩]
  refine ⟨⟨win, win', hwin, hwin', hslice, hslice', fun k => ⟨?_, fun r r' hr hr' => ?_⟩⟩,
    fun fuel => ?_⟩
  · constructor
    · rintro ⟨r, fuel, hr⟩
      obtain ⟨r', hr'⟩ := (entered_rel (hbody fuel) hagain hinit k).1.1 ⟨r, hr⟩
      exact ⟨r', fuel, hr'⟩
    · rintro ⟨r', fuel, hr'⟩
      obtain ⟨r, hr⟩ := (entered_rel (hbody fuel) hagain hinit k).1.2 ⟨r', hr'⟩
      exact ⟨r, fuel, hr⟩
  · have h := hstep k r r' hr hr'
    refine ⟨h.d_w, fun fuel r₁ r₁' hr₁ hr₁' v hv => ?_⟩
    have hrel := hbody fuel r r' h
    rw [hr₁, hr₁'] at hrel
    cases hrel with
    | some h₁ => exact h₁.d_w v hv
  · cases fuel with
    | zero => rfl
    | succ fuel =>
      have hpos := List.length_pos_iff.2 hg.nonempty
      rw [rbsc_single (batch_count_eq_one hpos hmax).le,
        rbsc_single (batch_count_eq_one (hlen ▸ hpos) hmax').le,
        single_report hfit hg.node_pos hg.nonempty hmax hwin hoff,
        single_report hfit' hn' hne' hmax' hwin' hoff']
      refine map_eq_of_rel (doWhile_rel (hbody (fuel + 1)) hagain (fuel + 1) hinit)
        fun r r' h => ?_
      rw [hren.node_n, keyCount_perm hren.isPerm fun v hv => congrArg BitVec.toNat (h.d_w v hv)]

end Runs

/-- **Refinement commutes with renaming the nodes and reordering the edges**, with no assumption on
the mixing function. -/
theorem refinement_commutes (hash : Word → Word) (srt srt' : Rsc.StdSort) (cub cub' : Cub)
    (extra extra' : ℕ → ℕ → Bool) (σ : ℕ → ℕ) (g g' : Graph) (hn : 1 ≤ g.node_n)
    (hlt : g.node_n < 2 ^ 31) (hids : IdsBelow g.node_n g.edges) (hgr : Grouped g.edges)
    (hgr' : Grouped g'.edges) (hren : Renamed σ g g') :
    RscCommutes hash srt srt' σ g g' ∧
      (g.edges ≠ [] → ∀ max max' dev dev', g.edges.length ≤ max → g'.edges.length ≤ max' →
        RbscCommutes cub cub' extra extra' max max' σ g g' dev dev') := by
  refine ⟨rscCommutes hash srt srt' hren hids hgr hgr' hn hlt.le,
    fun hne max max' dev dev' hmax hmax' => ?_⟩
  have hfit : GridFits g.node_n := by
    unfold GridFits THREAD_N
    omega
  exact rbscCommutes cub cub' extra extra' dev dev' hren ⟨hn, hne, hids, hgr⟩ hgr' hfit hmax hmax'

/-- The edge of `Rsc.edgeGraph`, the other way. -/
def backGraph : Graph := ⟨2, [⟨1, 0, 1⟩]⟩

/-- The exchange of two nodes. -/
def exchange (v : ℕ) : ℕ := 1 - v

theorem backGraph_renamed : Renamed exchange Rsc.edgeGraph backGraph :=
  ⟨rfl, ⟨by decide, by decide⟩, by decide⟩

theorem refinement_commutes_edgeGraph :
    RscCommutes randomize Rsc.StdSort.insertion Rsc.StdSort.insertion exchange Rsc.edgeGraph
        backGraph ∧
      RbscCommutes Cub.reference Cub.reference rbsc_extra rbsc_extra 1 1 exchange Rsc.edgeGraph
        backGraph zeroDevice zeroDevice := by
  obtain ⟨h₁, h₂⟩ := refinement_commutes randomize Rsc.StdSort.insertion Rsc.StdSort.insertion
    Cub.reference Cub.reference rbsc_extra rbsc_extra exchange Rsc.edgeGraph backGraph
    (by decide) (by decide) (by decide) (by decide) (by decide) backGraph_renamed
  exact ⟨h₁, h₂ (by decide) 1 1 zeroDevice zeroDevice le_rfl le_rfl⟩

end Rbsc.Compare
