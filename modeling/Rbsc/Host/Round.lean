import Rbsc.Host.Labels
import Rbsc.Host.Quotient

/-!
# One round

What a round does, with one worker: every window is refined on its own, the labels are a labelling
of the nodes by window and local label (`RoundSpec`), and the edges become the quotient by these
labels (`round_spec`).  A round returns whatever the sums are (`round_returns`).

* `windows`: the windows of a round; no node is in two of them (`disjoint_windows`);
* `KernelsFit`: the grid of the node kernels is not too small for the windows there are;
* `Refined`: a partition that the refinement of a window stops at;
* `RoundSpec`: the labels of a round.
-/

namespace Rbsc.Host

open Arrays DoWhile Gpu Labelling Lumping DenseRank

/-- The windows of a round. -/
def windows (max_batch_edge_n node_n : ℕ) (edges : List Edge) (k : ℕ) : Option Window :=
  select_window max_batch_edge_n node_n edges k

theorem lt_batch_count {edge_n max k : ℕ} (hmax : 1 ≤ max) :
    k < batch_count edge_n max ↔ k * max < edge_n := by
  rw [batch_count, Nat.lt_div_iff_mul_lt (by omega)]
  have hmul : max * k = k * max := Nat.mul_comm _ _
  omega

theorem batch_count_pos {edge_n max : ℕ} (hmax : 1 ≤ max) (h : 0 < edge_n) :
    0 < batch_count edge_n max := (lt_batch_count hmax).2 (by omega)

theorem batch_count_eq_one {edge_n max : ℕ} (h : 0 < edge_n) (hle : edge_n ≤ max) :
    batch_count edge_n max = 1 := by
  have h₁ := batch_count_pos (by omega : 1 ≤ max) h
  have h₂ : ¬ 1 < batch_count edge_n max := by
    rw [lt_batch_count (by omega)]
    omega
  omega

theorem le_of_batch_count_eq_one {edge_n max : ℕ} (hmax : 1 ≤ max)
    (h : batch_count edge_n max = 1) : edge_n ≤ max := by
  have : ¬ 1 < batch_count edge_n max := by omega
  rw [lt_batch_count hmax] at this
  omega

section Windows

variable {max n : ℕ} {edges : List Edge}

theorem windowSpec_of_some (hgr : Grouped edges) (hmax : 1 ≤ max) {k : ℕ} {win : Window}
    (hk : k < batch_count edges.length max) (hwin : windows max n edges k = some win) :
    WindowSpec max n edges k win :=
  windowSpec hgr hmax ((lt_batch_count hmax).1 hk) hwin

/-- There is no window past the last batch. -/
theorem windows_of_le (hmax : 1 ≤ max) {k : ℕ} (hk : batch_count edges.length max ≤ k) :
    windows max n edges k = none := by
  have hraw : ¬ k * max < edges.length := by
    rw [← lt_batch_count hmax]
    omega
  have hempty : rawEnd max edges k - rawStart max k = 0 := by
    unfold rawEnd rawStart
    omega
  rw [windows, select_window_eq, scan, hempty]
  rfl

/-- **No node is in two batches.** -/
theorem disjoint_windows (hgr : Grouped edges) (hmax : 1 ≤ max) :
    DisjointBatches n (windows max n edges) (batch_count edges.length max) := by
  rintro v hv k hk k' hk' ⟨win, hwin, hm⟩ ⟨win', hwin', hm'⟩
  exact (windowSpec_of_some hgr hmax hk hwin).unique (windowSpec_of_some hgr hmax hk' hwin') hgr hv
    hm hm'

/-- With one batch, all nodes are in it. -/
theorem inBatch_single (hgr : Grouped edges) (hne : 0 < edges.length) (hle : edges.length ≤ max)
    {v : ℕ} (hv : v < n) : InBatch (windows max n edges) 0 v := by
  obtain ⟨win, hwin, h0, hend⟩ := select_window_single n hne hle
  have hk : 0 < batch_count edges.length max := batch_count_pos (by omega) hne
  have hspec := windowSpec_of_some hgr (by omega) hk hwin
  refine ⟨win, hwin, ?_⟩
  by_cases hs : IsSource edges v
  · have hin := (hspec.in_iff v hv).2 (by
      rw [h0, hend]; exact isSource_iff_sourceIn.1 hs)
    simp [hin]
  · have hd := (hspec.dangling_iff v hv).2 ⟨rfl, hs⟩
    simp [hd]

/-- The grid of the node kernels covers all nodes, or all batches are skipped. -/
def KernelsFit (max n : ℕ) (edges : List Edge) : Prop :=
  GridFits n ∨
    n + 1 < 2 ^ 32 ∧ ∀ k < batch_count edges.length max, windows max n edges k = none

instance (max n : ℕ) (edges : List Edge) : Decidable (KernelsFit max n edges) := by
  unfold KernelsFit; infer_instance

theorem KernelsFit.lt (h : KernelsFit max n edges) : n + 1 < 2 ^ 32 := by
  rcases h with h | ⟨h, -⟩
  · have := h.lt
    omega
  · exact h

/-- Batches of one edge skip the two edges of a node, however many nodes there are. -/
example : KernelsFit 1 (2 ^ 32 - 2) [⟨0, 1, 1⟩, ⟨0, 1, 1⟩] := by decide

/-- Where there is a window, the grid covers all nodes. -/
theorem KernelsFit.gridFits (h : KernelsFit max n edges) (hmax : 1 ≤ max) {k : ℕ} {win : Window}
    (hwin : windows max n edges k = some win) : GridFits n := by
  rcases h with h | ⟨-, hskip⟩
  · exact h
  · have hnone : windows max n edges k = none := by
      rcases Nat.lt_or_ge k (batch_count edges.length max) with hk | hk
      · exact hskip k hk
      · exact windows_of_le hmax hk
    exact absurd (hwin.symm.trans hnone) (by simp)

end Windows

/-- The sums of a batch. -/
abbrev batchSums (sums : SumsOf) (n : ℕ) (edges : List Edge) (k : ℕ) (win : Window) : Sums :=
  sums n k (slice edges win.batch_start win.batch_end)
    (unique_count (slice edges win.batch_start win.batch_end))

/-- `p` is what the refinement of the window of batch `k` stops at, from a device in `Q k`. -/
def Refined (cub : Cub) (sums : SumsOf) (max n : ℕ) (edges : List Edge) (Q : ℕ → Device → Prop)
    (k : ℕ) (p : Arr Word) : Prop :=
  ∀ win, windows max n edges k = some win → ∃ fuel d r, Q k d ∧
    refine_loop cub (batchSums sums n edges k win) n win.batch_mask win.off_batch_node_n fuel d =
      some r ∧ p = r.dev.d_w

/-- The labels of a round: by batch and local label, and by the node for the nodes of no batch. -/
def RoundSpec (cub : Cub) (sums : SumsOf) (max n : ℕ) (edges : List Edge) (Q : ℕ → Device → Prop)
    (w : Arr ℕ) (m : ℕ) : Prop :=
  ∃ part : ℕ → Arr Word,
    (∀ k < batch_count edges.length max, Refined cub sums max n edges Q k (part k)) ∧
      Labelled n (nodeKey (windows max n edges) part (batch_count edges.length max)) {v | v < n} w m

/-- The labels that a refinement stops at are below the number of nodes. -/
theorem refine_loop_lt {cub : Cub} {sums : Sums} {n : ℕ}
    (hfit : GridFits n) (hn : 0 < n) {batch_mask : Arr Mask} {off fuel : ℕ} {d : Device}
    {r : Refine} (h : refine_loop cub sums n batch_mask off fuel d = some r) {v : ℕ} (hv : v < n) :
    (r.dev.d_w v).toNat < n := by
  obtain ⟨k, r₀, hr₀, hb, -⟩ := exists_last_pass h
  have hspec := hr₀.spec hfit hn hb
  rw [hspec.d_w v hv, rank_toNat hfit _ hv]
  exact (rank_lt_keyCount hv).trans_le keyCount_le

/-- The partitions that the refinements stop at have local labels below the number of nodes. -/
def SmallParts (cub : Cub) (sums : SumsOf) (max n : ℕ) (edges : List Edge)
    (Q : ℕ → Device → Prop) : Prop :=
  ∀ k win, windows max n edges k = some win → ∀ fuel d r, Q k d →
    refine_loop cub (batchSums sums n edges k win) n win.batch_mask win.off_batch_node_n fuel d =
      some r → ∀ v < n, localLabel r.dev.d_w v < n

theorem localLabel_eq {n : ℕ} (hfit : GridFits n) {p : Arr Word} {v : ℕ}
    (h : (p v).toNat < n) : localLabel p v = (p v).toNat :=
  nodeT_of_lt (by have := hfit.lt; omega)

theorem KernelsFit.smallParts {cub : Cub} {sums : SumsOf} {max n : ℕ} {edges : List Edge}
    {Q : ℕ → Device → Prop} (h : KernelsFit max n edges) (hmax : 1 ≤ max) (hn : 0 < n) :
    SmallParts cub sums max n edges Q := fun k win hwin fuel d r _ hr v hv => by
  have hfit := h.gridFits hmax hwin
  have hlt := refine_loop_lt hfit hn hr hv
  rwa [localLabel_eq hfit hlt]

/-! ## The batches -/

section Batches

variable {cub : Cub} {sums : SumsOf} {max n : ℕ} {edges : List Edge} {fuel : ℕ}

theorem run_batches_succ (m : ℕ) (s : Batches) :
    run_batches cub sums max n edges fuel (m + 1) s =
      (run_batches cub sums max n edges fuel m s).bind fun s' =>
        run_batch cub sums max n edges fuel s' m := by
  unfold run_batches
  rw [List.range_succ, List.foldlM_append]
  simp only [List.foldlM_cons, List.foldlM_nil, bind_pure]
  rfl

/-- **A batch returns**, whatever the sums are. -/
theorem run_batch_returns (hfit : KernelsFit max n edges) (hmax : 1 ≤ max) (hn : 0 < n)
    (hfuel : n + 1 ≤ fuel) (s : Batches) (k : ℕ) :
    ∃ s', run_batch cub sums max n edges fuel s k = some s' := by
  unfold run_batch
  cases hwin : select_window max n edges k with
  | none => exact ⟨s, rfl⟩
  | some win =>
    obtain ⟨r, hr⟩ := refine_returns cub (batchSums sums n edges k win) win.batch_mask
      win.off_batch_node_n s.dev (hfit.gridFits hmax hwin) hn hfuel
    dsimp only
    rw [hr]
    exact ⟨_, rfl⟩

theorem run_batches_returns (cub : Cub) (sums : SumsOf) (hfit : KernelsFit max n edges)
    (hmax : 1 ≤ max) (hn : 0 < n) (hfuel : n + 1 ≤ fuel) (s : Batches) :
    ∀ m, ∃ s', run_batches cub sums max n edges fuel m s = some s'
  | 0 => ⟨s, rfl⟩
  | m + 1 => by
    obtain ⟨s', hs'⟩ := run_batches_returns cub sums hfit hmax hn hfuel s m
    rw [run_batches_succ, hs', Option.bind_some]
    exact run_batch_returns hfit hmax hn hfuel s' m

/-- The nodes of the first batches. -/
def labelledNodes (n : ℕ) (win : ℕ → Option Window) (m : ℕ) : Set ℕ :=
  {v | v < n ∧ ∃ k < m, InBatch win k v}

theorem DisjointBatches.mono {win : ℕ → Option Window} {m m' : ℕ} (h : DisjointBatches n win m)
    (hm : m' ≤ m) : DisjointBatches n win m' :=
  fun v hv k hk k' hk' => h v hv k (by omega) k' (by omega)

/-- A skipped batch labels nothing. -/
theorem labelledNodes_skip {win : ℕ → Option Window} {m : ℕ} (hw : win m = none) :
    labelledNodes n win (m + 1) = labelledNodes n win m := by
  have hnot : ∀ v, ¬ InBatch win m v := by
    rintro v ⟨W, hW, -⟩
    rw [hw] at hW
    cases hW
  ext v
  refine and_congr_right fun _ => ⟨fun ⟨k, hk, hin⟩ => ?_, fun ⟨k, hk, hin⟩ => ?_⟩
  · rcases Nat.lt_succ_iff_lt_or_eq.1 hk with hk | rfl
    · exact ⟨k, hk, hin⟩
    · exact absurd hin (hnot v)
  · exact ⟨k, by omega, hin⟩

/-- A batch labels its nodes. -/
theorem labelledNodes_succ {win : ℕ → Option Window} {m : ℕ} {W : Window} (hw : win m = some W) :
    labelledNodes n win (m + 1) = labelledNodes n win m ∪ batchNodes n W.batch_mask := by
  ext v
  constructor
  · rintro ⟨hv, k, hk, hink⟩
    rcases Nat.lt_succ_iff_lt_or_eq.1 hk with hk | rfl
    · exact Or.inl ⟨hv, k, hk, hink⟩
    · obtain ⟨W', hW', hoff⟩ := hink
      cases hw.symm.trans hW'
      exact Or.inr ⟨hv, hoff⟩
  · rintro (⟨hv, k, hk, hink⟩ | hv)
    · exact ⟨hv, k, by omega, hink⟩
    · exact ⟨hv.1, m, by omega, W, hw, hv.2⟩

/-- No earlier batch has labelled the nodes of a batch. -/
theorem notMem_labelledNodes {win : ℕ → Option Window} {m : ℕ} {W : Window}
    (hd : DisjointBatches n win (m + 1)) (hw : win m = some W) {v : ℕ}
    (hv : v ∈ batchNodes n W.batch_mask) : v ∉ labelledNodes n win m := by
  rintro ⟨-, k, hk, hin⟩
  have := hd v hv.1 k (by omega) m (by omega) hin ⟨W, hw, hv.2⟩
  omega

/-- The key of a labelled node does not change with a later batch. -/
theorem nodeKey_of_labelled {win : ℕ → Option Window} (part part' : ℕ → Arr Word) {m m' : ℕ}
    (hd : DisjointBatches n win m') (hm : m ≤ m') (hpart : ∀ k < m, part' k = part k) {v : ℕ}
    (hv : v ∈ labelledNodes n win m) :
    ∃ k < m, InBatch win k v ∧ nodeKey win part m v = .inl (k, localLabel (part k) v) ∧
      nodeKey win part' m' v = .inl (k, localLabel (part k) v) := by
  obtain ⟨hvn, k, hk, hin⟩ := hv
  refine ⟨k, hk, hin, nodeKey_of_inBatch (hd.mono hm) hvn hk hin, ?_⟩
  rw [nodeKey_of_inBatch hd hvn (by omega) hin, hpart k hk]

/-- **The batches label their nodes**, the first `m` of them. -/
theorem run_batches_spec (hlt : n < 2 ^ 32) (hgr : Grouped edges) (hmax : 1 ≤ max)
    {Q : ℕ → Device → Prop} (hsmall : SmallParts cub sums max n edges Q) (s₀ : Batches)
    (h0 : ∀ v < n, s₀.w v = n) (h0' : s₀.new_node_n = 0) :
    ∀ m ≤ batch_count edges.length max, ∀ s, run_batches cub sums max n edges fuel m s₀ = some s →
      (∀ k < m, ∀ s', run_batches cub sums max n edges fuel k s₀ = some s' → Q k s'.dev) →
      ∃ part : ℕ → Arr Word, (∀ k < m, Refined cub sums max n edges Q k (part k)) ∧
        Labelled n (nodeKey (windows max n edges) part m)
          (labelledNodes n (windows max n edges) m) s.w s.new_node_n := by
  have hd : DisjointBatches n (windows max n edges) (batch_count edges.length max) :=
    disjoint_windows hgr hmax
  set win := windows max n edges with hwin
  intro m
  induction m with
  | zero =>
    intro _ s hs _
    cases hs
    have hempty : labelledNodes n win 0 = ∅ := by
      ext v
      simp [labelledNodes]
    refine ⟨fun _ => .const 0, fun k hk => by omega, ?_⟩
    rw [hempty, h0']
    exact Labelled.empty h0
  | succ m ih =>
    intro hm s hs hQ
    rw [run_batches_succ] at hs
    obtain ⟨s', hs', hb⟩ := Option.bind_eq_some_iff.1 hs
    obtain ⟨part, href, hlab⟩ := ih (by omega) s' hs' fun k hk => hQ k (by omega)
    unfold run_batch at hb
    cases hw : select_window max n edges m with
    | none =>
      rw [hw] at hb
      cases hb
      refine ⟨part, fun k hk => ?_, ?_⟩
      · rcases Nat.lt_succ_iff_lt_or_eq.1 hk with hk | rfl
        · exact href k hk
        · intro W hW
          exact absurd (hW.symm.trans hw) (by simp)
      · rw [labelledNodes_skip (show win m = none from hw)]
        refine hlab.congr_key fun u hu v hv => ?_
        obtain ⟨k, -, -, h₁, h₂⟩ := nodeKey_of_labelled part part
          (hd.mono hm) (Nat.le_succ m) (fun _ _ => rfl) hu
        obtain ⟨k', -, -, h₃, h₄⟩ := nodeKey_of_labelled part part
          (hd.mono hm) (Nat.le_succ m) (fun _ _ => rfl) hv
        rw [h₁, h₂, h₃, h₄]
    | some W =>
      rw [hw] at hb
      obtain ⟨r, hr, rfl⟩ := Option.map_eq_some_iff.1 hb
      set p := r.dev.d_w with hp
      set part' := Function.update part m p with hpart'
      have hold : ∀ k < m, part' k = part k := fun k hk => Function.update_of_ne (by omega) _ _
      have hnew : part' m = p := Function.update_self _ _ _
      have hdm := hd.mono hm
      have hin : ∀ v ∈ batchNodes n W.batch_mask, InBatch win m v := fun v hv => ⟨W, hw, hv.2⟩
      refine ⟨part', fun k hk => ?_, ?_⟩
      · rcases Nat.lt_succ_iff_lt_or_eq.1 hk with hk | rfl
        · rw [hold k hk]
          exact href k hk
        · intro W' hW'
          cases hw.symm.trans hW'
          exact ⟨fuel, s'.dev, r, hQ k (by omega) s' hs', hr, hnew⟩
      · rw [labelledNodes_succ (show win m = some W from hw)]
        refine label_loop_spec (k := m) (by omega)
          (hlab.congr_key fun u hu v hv => ?_) (fun v hv l => ?_) (fun v hv => ?_)
          (hsmall m W hw fuel s'.dev r (hQ m (by omega) s' hs') hr)
        · obtain ⟨k, -, -, h₁, h₂⟩ := nodeKey_of_labelled part part' hdm (Nat.le_succ m) hold hu
          obtain ⟨k', -, -, h₃, h₄⟩ := nodeKey_of_labelled part part' hdm (Nat.le_succ m) hold hv
          rw [h₁, h₂, h₃, h₄]
        · obtain ⟨k, hk, -, -, h₂⟩ := nodeKey_of_labelled part part' hdm (Nat.le_succ m) hold hv
          rw [h₂]
          intro he
          have := (Prod.ext_iff.1 (Sum.inl.inj he)).1
          dsimp only at this
          omega
        · rw [nodeKey_of_inBatch hdm hv.1 (by omega) (hin v hv), hnew]

end Batches

/-! ## The round -/

section Round

variable {cub : Cub} {sums : SumsOf} {max fuel : ℕ} {s s' : State}

/-- The starting devices of the batches of a round are in `Q`. -/
def StartsIn (cub : Cub) (sums : SumsOf) (max : ℕ) (Q : ℕ → Device → Prop) (s : State) : Prop :=
  ∀ fuel, ∀ k < batch_count s.edges.length max, ∀ b,
    run_batches cub sums max s.new_node_n s.edges fuel k (batches_init s) = some b → Q k b.dev

/-- **A round returns**, whatever the sums are. -/
theorem round_returns (hfit : KernelsFit max s.new_node_n s.edges) (hmax : 1 ≤ max)
    (hn : 0 < s.new_node_n) (hfuel : s.new_node_n + 1 ≤ fuel) :
    ∃ s', round cub sums max fuel s = some s' := by
  obtain ⟨r, hr⟩ := run_batches_returns cub sums hfit hmax hn hfuel (batches_init s)
    (batch_count s.edges.length max)
  exact ⟨_, congrArg (Option.map _) hr⟩

/-- The fill-in completes the labels of the batches. -/
theorem roundSpec_fill_in {sums : SumsOf} {n m : ℕ} {edges : List Edge} {Q : ℕ → Device → Prop}
    {w : Arr ℕ} (hlt : n < 2 ^ 32) (hgr : Grouped edges) (hmax : 1 ≤ max) {part : ℕ → Arr Word}
    (href : ∀ k < batch_count edges.length max, Refined cub sums max n edges Q k (part k))
    (hlab : Labelled n (nodeKey (windows max n edges) part (batch_count edges.length max))
      (labelledNodes n (windows max n edges) (batch_count edges.length max)) w m) :
    RoundSpec cub sums max n edges Q (fill_in n ⟨w, m⟩).w (fill_in n ⟨w, m⟩).new_node_n := by
  refine ⟨part, href, fill_in_spec hlt hlab (fun v hv u => ?_) fun v hv hvS => ?_⟩
  · obtain ⟨k, -, -, h₁, -⟩ := nodeKey_of_labelled part part (disjoint_windows hgr hmax) le_rfl
      (fun _ _ => rfl) hv
    rw [h₁]
    simp
  · exact nodeKey_of_forall_not fun k hk hin => hvS ⟨hv, k, hk, hin⟩

/-- The only batch has all nodes. -/
theorem labelledNodes_single {n : ℕ} {edges : List Edge} (hgr : Grouped edges) (hne : edges ≠ [])
    (hmax : 1 ≤ max) (hb : ¬ 1 < batch_count edges.length max) :
    labelledNodes n (windows max n edges) (batch_count edges.length max) = {v | v < n} := by
  have hpos : 0 < edges.length := List.length_pos_iff.2 hne
  have hbpos := batch_count_pos hmax hpos
  have hle := le_of_batch_count_eq_one hmax (by omega : batch_count edges.length max = 1)
  ext v
  exact ⟨fun hv => hv.1, fun hv => ⟨hv, 0, hbpos, inBatch_single hgr hpos hle hv⟩⟩

/-- What a round does: it labels the nodes, and takes the quotient by the labels when it has several
batches. -/
structure RoundPost (cub : Cub) (sums : SumsOf) (max : ℕ) (Q : ℕ → Device → Prop) (s s' : State) :
    Prop where
  node_n : s'.node_n = s.new_node_n
  batches : s'.batches = batch_count s.edges.length max
  labels : RoundSpec cub sums max s.new_node_n s.edges Q s'.w s'.new_node_n
  edges : s'.edges = if 1 < batch_count s.edges.length max then quotientEdges s'.w s.edges
    else s.edges

/-- **A round**, with one worker. -/
theorem round_spec (hlt : s.new_node_n < 2 ^ 32) (hgr : Grouped s.edges) (hne : s.edges ≠ [])
    (hmax : 1 ≤ max) {Q : ℕ → Device → Prop} (hQ : StartsIn cub sums max Q s)
    (hsmall : SmallParts cub sums max s.new_node_n s.edges Q)
    (h : round cub sums max fuel s = some s') : RoundPost cub sums max Q s s' := by
  obtain ⟨r, hr, hs'⟩ := Option.map_eq_some_iff.1 h
  obtain ⟨part, href, hlab⟩ := run_batches_spec hlt hgr hmax hsmall
    (batches_init s) (fun v hv => fill_of_lt _ _ hv) rfl _ le_rfl r hr
    fun k hk b hb => hQ fuel k hk b hb
  by_cases hb : 1 < batch_count s.edges.length max
  · rw [if_pos hb] at hs'
    subst hs'
    refine ⟨rfl, rfl, roundSpec_fill_in hlt hgr hmax href hlab, ?_⟩
    rw [if_pos hb]
    exact compact_eq _ _ hgr
  · rw [if_neg hb] at hs'
    subst hs'
    rw [labelledNodes_single hgr hne hmax hb] at hlab
    exact ⟨rfl, rfl, ⟨part, href, hlab⟩, (if_neg hb).symm⟩

theorem RoundSpec.le {n m : ℕ} {edges : List Edge} {Q : ℕ → Device → Prop} {w : Arr ℕ}
    (h : RoundSpec cub sums max n edges Q w m) : m ≤ n := by
  obtain ⟨part, -, hlab⟩ := h
  exact hlab.le

theorem RoundSpec.pos {n m : ℕ} {edges : List Edge} {Q : ℕ → Device → Prop} {w : Arr ℕ}
    (h : RoundSpec cub sums max n edges Q w m) (hn : 0 < n) : 0 < m := by
  obtain ⟨part, -, hlab⟩ := h
  exact Nat.zero_lt_of_lt (hlab.lt 0 hn)

theorem RoundSpec.lt {n m : ℕ} {edges : List Edge} {Q : ℕ → Device → Prop} {w : Arr ℕ}
    (h : RoundSpec cub sums max n edges Q w m) : ∀ v < n, w v < m := by
  obtain ⟨part, -, hlab⟩ := h
  exact fun v hv => hlab.lt v hv

/-- With all batches skipped, every node gets a label of its own. -/
theorem RoundSpec.eq_of_skipped {n m : ℕ} {edges : List Edge} {Q : ℕ → Device → Prop} {w : Arr ℕ}
    (h : RoundSpec cub sums max n edges Q w m)
    (hskip : ∀ k < batch_count edges.length max, windows max n edges k = none) : m = n := by
  obtain ⟨part, -, hlab⟩ := h
  have hkey : ∀ v, nodeKey (windows max n edges) part (batch_count edges.length max) v = .inr v :=
    fun v => nodeKey_of_forall_not fun k hk ⟨win, hwin, _⟩ => by
      rw [hskip k hk] at hwin
      cases hwin
  have hid : keyCount (fun v : ℕ => v) n = n := by
    simp [keyCount, keys]
  refine (hlab.keyCount_eq fun v hv => hv).symm.trans (Eq.trans ?_ hid)
  refine keyCount_eq_of_iff fun u hu v hv => ?_
  rw [hlab.eq_iff u hu v hv, hkey, hkey]
  simp

end Round

end Rbsc.Host
