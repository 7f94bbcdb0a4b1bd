import Rbsc.Host.Round

/-!
# Windows and groups

The window of a batch consists of the groups that lie entirely in its raw range, and a batch is
skipped only when there is none; so the windows of a round split no group, are disjoint, and give
every node to at most one batch (`wholeGroups`).

* `LiesIn`: all edges of a source are in a range;
* `WholeGroups`: what the windows of a round and their masks are.
-/

namespace Rbsc.Host

open Arrays Gpu

/-- All edges from `u` are in `[lo, hi)`. -/
def LiesIn (edges : List Edge) (lo hi u : ℕ) : Prop :=
  ∀ i < edges.length, startAt edges i = u → lo ≤ i ∧ i < hi

instance (edges : List Edge) (lo hi u : ℕ) : Decidable (LiesIn edges lo hi u) := by
  unfold LiesIn; infer_instance

/-- The windows of a round, and their masks. -/
structure WholeGroups (max n : ℕ) (edges : List Edge) : Prop where
  /-- A window has exactly the groups that lie in the raw range. -/
  mem_iff : ∀ k < batch_count edges.length max, ∀ win, windows max n edges k = some win →
    ∀ i < edges.length, win.batch_start ≤ i ∧ i < win.batch_end ↔
      LiesIn edges (rawStart max k) (rawEnd max edges k) (startAt edges i)
  /-- It is a range of the edge list. -/
  range : ∀ k < batch_count edges.length max, ∀ win, windows max n edges k = some win →
    win.batch_start ≤ win.batch_end ∧ win.batch_end ≤ edges.length
  /-- No group lies in the raw range of a batch that is skipped. -/
  skipped : ∀ k < batch_count edges.length max, windows max n edges k = none →
    ∀ u, IsSource edges u → ¬ LiesIn edges (rawStart max k) (rawEnd max edges k) u
  /-- No edge is in two windows. -/
  disjoint : ∀ k < batch_count edges.length max, ∀ k' < batch_count edges.length max,
    ∀ win win', windows max n edges k = some win → windows max n edges k' = some win' →
      ∀ i, win.batch_start ≤ i → i < win.batch_end → win'.batch_start ≤ i → i < win'.batch_end →
        k = k'
  /-- No group is split. -/
  unsplit : ∀ k < batch_count edges.length max, ∀ win, windows max n edges k = some win →
    ∀ i < edges.length, ∀ j < edges.length, startAt edges i = startAt edges j →
      win.batch_start ≤ i → i < win.batch_end → win.batch_start ≤ j ∧ j < win.batch_end
  /-- The mask after the corrections. -/
  mask : ∀ k < batch_count edges.length max, ∀ win, windows max n edges k = some win → ∀ v < n,
    win.batch_mask v =
      if SourceIn edges win.batch_start win.batch_end v then .IN_BATCH
      else if k = 0 ∧ ¬ IsSource edges v then .DANGLING
      else .OFF_BATCH
  /-- Every node is given to at most one batch. -/
  one_batch : DisjointBatches n (windows max n edges) (batch_count edges.length max)

section Groups

variable {edges : List Edge} {max n i : ℕ} {win : Window}

/-- The group of an edge starts at a cut. -/
theorem exists_cut_le (hi : i < edges.length) :
    ∃ a ≤ i, Cut edges a ∧ startAt edges a = startAt edges i := by
  induction i with
  | zero => exact ⟨0, le_rfl, Or.inl rfl, rfl⟩
  | succ i ih =>
    by_cases h : startAt edges i = startAt edges (i + 1)
    · obtain ⟨a, ha, hc, hs⟩ := ih (by omega)
      exact ⟨a, by omega, hc, hs.trans h⟩
    · exact ⟨i + 1, le_rfl, Or.inr (Or.inr h), rfl⟩

/-- The group of an edge ends at a cut. -/
theorem exists_cut_gt (hi : i < edges.length) :
    ∃ b, i < b ∧ b ≤ edges.length ∧ Cut edges b ∧ startAt edges (b - 1) = startAt edges i := by
  obtain ⟨m, hm⟩ := Nat.exists_eq_add_of_lt hi
  induction m generalizing i with
  | zero => exact ⟨i + 1, by omega, by omega, Or.inr (Or.inl (by omega)), rfl⟩
  | succ m ih =>
    by_cases h : startAt edges i = startAt edges (i + 1)
    · obtain ⟨b, hb, hbl, hc, hs⟩ := ih (i := i + 1) (by omega) (by omega)
      exact ⟨b, by omega, hbl, hc, hs.trans h.symm⟩
    · exact ⟨i + 1, by omega, by omega, Or.inr (Or.inr h), rfl⟩

/-- **A window has exactly the groups that lie in its raw range.** -/
theorem window_mem_iff (hgr : Grouped edges) (hmax : 1 ≤ max) {k : ℕ}
    (h : rawStart max k < edges.length) (hwin : windows max n edges k = some win)
    (hi : i < edges.length) : win.batch_start ≤ i ∧ i < win.batch_end ↔
      LiesIn edges (rawStart max k) (rawEnd max edges k) (startAt edges i) := by
  obtain ⟨hraw, -, hend, hca, hcb, hmin, hlast, -⟩ := select_window_some h hmax hwin
  constructor
  · rintro ⟨hai, hib⟩ j hj hji
    have haj : win.batch_start ≤ j := by
      by_contra hlt
      exact hca.ne hgr (by omega) hai hi hji
    have hjb : j < win.batch_end := by
      by_contra hle
      exact hcb.ne hgr hib (by omega) hj hji.symm
    exact ⟨by omega, by omega⟩
  · intro hin
    obtain ⟨a, hai, hc, hs⟩ := exists_cut_le hi
    obtain ⟨b, hib, hbl, hc', hs'⟩ := exists_cut_gt hi
    have ha := (hin a (by omega) hs).1
    have hb := (hin (b - 1) (by omega) hs').2
    constructor
    · by_contra hlt
      exact hmin a ha (by omega) hc
    · by_contra hle
      exact hlast b (by omega) (by omega) hc'

/-- No group lies in the raw range of a batch that is skipped. -/
theorem not_liesIn_of_skipped (hmax : 1 ≤ max) {k u : ℕ} (h : rawStart max k < edges.length)
    (hwin : windows max n edges k = none) (hu : IsSource edges u) :
    ¬ LiesIn edges (rawStart max k) (rawEnd max edges k) u := by
  intro hin
  obtain ⟨i, hi, rfl⟩ := isSource_iff.1 hu
  obtain ⟨a, hai, hc, hs⟩ := exists_cut_le hi
  obtain ⟨b, hib, hbl, hc', hs'⟩ := exists_cut_gt hi
  have ha := (hin a (by omega) hs).1
  have hb := (hin (b - 1) (by omega) hs').2
  exact select_window_none h hmax hwin ha (by omega) (by omega) hc hc'

theorem WindowSpec.mask_eq {k : ℕ} (h : WindowSpec max n edges k win) {v : ℕ} (hv : v < n) :
    win.batch_mask v =
      if SourceIn edges win.batch_start win.batch_end v then .IN_BATCH
      else if k = 0 ∧ ¬ IsSource edges v then .DANGLING
      else .OFF_BATCH := by
  split_ifs with h₁ h₂
  · exact (h.in_iff v hv).2 h₁
  · exact (h.dangling_iff v hv).2 h₂
  · cases hm : win.batch_mask v with
    | OFF_BATCH => rfl
    | IN_BATCH => exact absurd ((h.in_iff v hv).1 hm) h₁
    | DANGLING => exact absurd ((h.dangling_iff v hv).1 hm) h₂

/-- The raw ranges of two batches are disjoint. -/
theorem rawEnd_le_rawStart (max : ℕ) (edges : List Edge) {k k' : ℕ} (h : k < k') :
    rawEnd max edges k ≤ rawStart max k' := by
  have hmul : (k + 1) * max ≤ k' * max := Nat.mul_le_mul_right _ h
  have hmin := Nat.min_le_right edges.length (k * max + max)
  rw [Nat.add_mul, Nat.one_mul] at hmul
  unfold rawEnd rawStart
  omega

/-- The scan sets the end of the window after the first edge only. -/
theorem foldl_scan_end_pos {edges : List Edge} : ∀ (l : List ℕ) (s : Scan),
    (∀ b, s.new_batch_end = some b → 0 < b) →
      ∀ b, (l.foldl (scan_step edges) s).new_batch_end = some b → 0 < b
  | [], _, h => h
  | i :: l, s, h => foldl_scan_end_pos l _ fun b hb => by
      unfold scan_step at hb
      dsimp only at hb
      split_ifs at hb with h₁ h₂ h₂
      · cases hb
        omega
      · exact h b hb
      · cases hb
        omega
      · exact h b hb

theorem batch_end_pos (hne : edges ≠ []) (hmax : 1 ≤ max)
    (hwin : windows max n edges 0 = some win) : 0 < win.batch_end := by
  have hpos : 0 < edges.length := List.length_pos_iff.2 hne
  have hraw : 0 < rawEnd max edges 0 := by
    unfold rawEnd
    omega
  rw [windows, select_window_eq] at hwin
  dsimp only at hwin
  set s := scan n edges 0 (rawStart max 0) (rawEnd max edges 0) with hs
  have hscan : ∀ b, s.new_batch_end = some b → 0 < b :=
    foldl_scan_end_pos _ _ fun b hb => by simp at hb
  have hend : ∀ b, finalEnd edges (rawEnd max edges 0) s = some b → 0 < b := fun b hb => by
    unfold finalEnd at hb
    split_ifs at hb
    · cases hb
      exact hraw
    · exact hscan b hb
  cases hsa : s.new_batch_start with
  | none => simp [hsa] at hwin
  | some a =>
    cases heb : finalEnd edges (rawEnd max edges 0) s with
    | none => simp [hsa, heb] at hwin
    | some b =>
      simp only [hsa, heb, Option.some.injEq] at hwin
      subst hwin
      exact hend b heb

/-- **The first batch is not skipped** exactly when the first group is no longer than a batch. -/
theorem first_window_iff (n : ℕ) (hgr : Grouped edges) (hne : edges ≠ []) (hmax : 1 ≤ max) :
    windows max n edges 0 ≠ none ↔ LiesIn edges 0 max (startAt edges 0) := by
  have hpos : 0 < edges.length := List.length_pos_iff.2 hne
  have h0 : rawStart max 0 = 0 := Nat.zero_mul _
  have hraw : rawStart max 0 < edges.length := by omega
  have hend : rawEnd max edges 0 = min edges.length max := by
    unfold rawEnd
    omega
  constructor
  · intro hwin
    obtain ⟨win, hwin⟩ := Option.ne_none_iff_exists'.1 hwin
    obtain ⟨-, -, -, -, -, hmin, -⟩ := select_window_some hraw hmax hwin
    have hstart : win.batch_start = 0 := by
      by_contra hst
      exact hmin 0 (by omega) (by omega) (Or.inl rfl)
    have hin := (window_mem_iff hgr hmax hraw hwin hpos).1
      ⟨hstart.le, batch_end_pos hne hmax hwin⟩
    intro i hi hs
    have := hin i hi hs
    omega
  · intro hin hwin
    refine not_liesIn_of_skipped hmax hraw hwin (isSource_iff.2 ⟨0, hpos, rfl⟩) fun i hi hs => ?_
    have := hin i hi hs
    omega

/-- **The windows of a round consist of whole groups.** -/
theorem wholeGroups (max n : ℕ) (edges : List Edge) (hgr : Grouped edges) (hmax : 1 ≤ max) :
    WholeGroups max n edges where
  mem_iff k hk win hwin i hi := window_mem_iff hgr hmax ((lt_batch_count hmax).1 hk) hwin hi
  range k hk win hwin :=
    have hspec := windowSpec_of_some hgr hmax hk hwin
    ⟨hspec.le, hspec.end_le⟩
  skipped k hk hwin u hu := not_liesIn_of_skipped hmax ((lt_batch_count hmax).1 hk) hwin hu
  disjoint k hk k' hk' win win' hwin hwin' i hai hib hai' hib' := by
    have hspec := windowSpec_of_some hgr hmax hk hwin
    have hspec' := windowSpec_of_some hgr hmax hk' hwin'
    have h₁ := hspec.raw_le
    have h₂ := hspec.le_raw
    have h₁' := hspec'.raw_le
    have h₂' := hspec'.le_raw
    rcases lt_trichotomy k k' with hlt | heq | hgt
    · have := rawEnd_le_rawStart max edges hlt
      omega
    · exact heq
    · have := rawEnd_le_rawStart max edges hgt
      omega
  unsplit k hk win hwin i hi j hj hij hai hib := by
    have hraw := (lt_batch_count hmax).1 hk
    rw [window_mem_iff hgr hmax hraw hwin hj, ← hij, ← window_mem_iff hgr hmax hraw hwin hi]
    exact ⟨hai, hib⟩
  mask k hk win hwin v hv := (windowSpec_of_some hgr hmax hk hwin).mask_eq hv
  one_batch := disjoint_windows hgr hmax

end Groups

/-- Three groups, the middle one across the border of two batches. -/
theorem wholeGroups_three :
    WholeGroups 2 4 [⟨0, 1, 1⟩, ⟨2, 0, 1⟩, ⟨2, 1, 1⟩, ⟨3, 0, 1⟩] :=
  wholeGroups 2 4 _ (by decide) (by decide)

end Rbsc.Host
