import Rbsc.PartRef.Touched
import Rbsc.PartRef.Adjacent

/-!
# One splitter

The scan of a splitter adds up, for every state, the weights of its transitions into the splitter
(`scan_splitter_spec`).  The states with a sum other than zero are marked, and every touched block
is divided.  Together a splitter divides every block by these sums (`markov_step_divides`), whatever
the order of the blocks on the stack and of the states within them.
-/

namespace Rbsc.PartRef

open Arrays ForLoop RefinablePartition

variable {n : ℕ} {i : Input} {B : RefinablePartition} {u v b : ℕ}

/-! ## The scan of the input transitions -/

/-- The total weight of the transitions of `l` from `u`. -/
def sumFrom (m : MDP) (l : List ℕ) (u : ℕ) : ℤ :=
  ((l.filter fun tr => m.w_tails tr = u).map m.w_weights).sum

/-- `u` is the tail of a transition of `l`. -/
def Touched (m : MDP) (l : List ℕ) (u : ℕ) : Prop := ∃ tr ∈ l, m.w_tails tr = u

theorem sumFrom_append (m : MDP) (l l' : List ℕ) (u : ℕ) :
    sumFrom m (l ++ l') u = sumFrom m l u + sumFrom m l' u := by
  simp [sumFrom]

theorem sumFrom_perm {m : MDP} {l l' : List ℕ} (h : l.Perm l') (u : ℕ) :
    sumFrom m l u = sumFrom m l' u := ((h.filter _).map _).sum_eq

theorem sumFrom_of_not_touched {m : MDP} {l : List ℕ} (h : ¬ Touched m l u) :
    sumFrom m l u = 0 := by
  have : (l.filter fun tr => m.w_tails tr = u) = [] :=
    List.filter_eq_nil_iff.2 fun tr htr ht => h ⟨tr, htr, of_decide_eq_true ht⟩
  rw [sumFrom, this]
  rfl

/-- The sums of weights from a state are in `int`, and never the value of an unused slot. -/
def SumsFit (m : MDP) : Prop :=
  ∀ l : List ℕ, l.Nodup → (∀ tr ∈ l, Num m.nr_w_trans tr) → ∀ u, (sumFrom m l u).natAbs < 2 ^ 31

theorem ne_unused_of_lt {x : ℤ} (h : x.natAbs < 2 ^ 31) : x ≠ MDP_unused_weight := by
  unfold MDP_unused_weight
  omega

/-- What the scan has made of the transitions `l`. -/
structure Scanned (n : ℕ) (m : MDP) (ww₀ : Arr ℤ) (l : List ℕ) (p : Arr ℤ × List ℕ) : Prop where
  touched : ∀ u, u ∈ p.2 ↔ Touched m l u
  nodup : p.2.Nodup
  sum : ∀ u, Touched m l u → p.1 u = sumFrom m l u
  other : ∀ u, ¬ Touched m l u → p.1 u = ww₀ u

theorem touched_append {m : MDP} {l : List ℕ} {tr : ℕ} :
    Touched m (l ++ [tr]) u ↔ Touched m l u ∨ m.w_tails tr = u := by
  simp only [Touched, List.mem_append, List.mem_singleton, or_and_right, exists_or, exists_eq_left]

theorem Scanned.next {m : MDP} {ww₀ : Arr ℤ} {l : List ℕ} {p : Arr ℤ × List ℕ} {tr : ℕ}
    (h : Scanned n m ww₀ l p) (hww : ww₀ (m.w_tails tr) = MDP_unused_weight)
    (hfit : (sumFrom m l (m.w_tails tr)).natAbs < 2 ^ 31)
    (hfit' : (sumFrom m (l ++ [tr]) (m.w_tails tr)).natAbs < 2 ^ 31) :
    Scanned n m ww₀ (l ++ [tr]) (add_weight m p tr) := by
  have hone : ∀ u, sumFrom m [tr] u = if m.w_tails tr = u then m.w_weights tr else 0 := by
    intro u
    unfold sumFrom
    split_ifs with htu <;> simp [htu]
  unfold add_weight
  dsimp only
  by_cases ht : Touched m l (m.w_tails tr)
  · -- the tail has been met
    have hne : p.1 (m.w_tails tr) ≠ MDP_unused_weight := by
      rw [h.sum _ ht]
      exact ne_unused_of_lt hfit
    have hint : intT (p.1 (m.w_tails tr) + m.w_weights tr) =
        p.1 (m.w_tails tr) + m.w_weights tr := by
      rw [sumFrom_append, hone, if_pos rfl] at hfit'
      rw [h.sum _ ht, intT_of_lt hfit']
    rw [if_neg hne, hint]
    have htouched : ∀ u, Touched m (l ++ [tr]) u ↔ Touched m l u := by
      intro u
      rw [touched_append]
      apply or_iff_left_of_imp
      rintro rfl
      exact ht
    refine ⟨fun u => (h.touched u).trans (htouched u).symm, h.nodup, fun u hu => ?_, fun u hu => ?_⟩
    · rw [htouched] at hu
      rw [sumFrom_append, hone, Arr.set_apply]
      split_ifs with h₁ h₂ h₂
      · rw [h₁, h.sum _ ht]
      · exact absurd h₁.symm h₂
      · exact absurd h₂.symm h₁
      · rw [h.sum u hu, add_zero]
    · rw [htouched] at hu
      have hne' : u ≠ m.w_tails tr := by
        rintro rfl
        exact hu ht
      rw [Arr.set_of_ne _ _ hne', h.other u hu]
  · have heq : p.1 (m.w_tails tr) = MDP_unused_weight := (h.other _ ht).trans hww
    rw [if_pos heq]
    refine ⟨fun u => ?_, ?_, fun u hu => ?_, fun u hu => ?_⟩
    · rw [touched_append, List.mem_append, List.mem_singleton, h.touched u, eq_comm (a := u)]
    · rw [List.nodup_append]
      refine ⟨h.nodup, List.nodup_singleton _, fun x hx y hy hxy => ?_⟩
      rw [List.mem_singleton.1 hy] at hxy
      exact ht ((h.touched _).1 (hxy ▸ hx))
    · rw [sumFrom_append, hone, Arr.set_apply]
      split_ifs with h₁ h₂ h₂
      · rw [h₁, sumFrom_of_not_touched ht, zero_add]
      · exact absurd h₁.symm h₂
      · exact absurd h₂.symm h₁
      · have hu' : Touched m l u := (touched_append.1 hu).resolve_right h₂
        rw [h.sum u hu', add_zero]
    · rw [touched_append, not_or] at hu
      rw [Arr.set_of_ne _ _ (Ne.symm hu.2), h.other u hu.1]

/-- The transitions into the splitter, in the order of the scan. -/
def inTransitions (i : Input) (B : RefinablePartition) (s : ℕ) : List ℕ :=
  (B.places s).flatMap fun lc => i.adj_w.of (B.elems lc)

/-- The transitions are between states, and the arrays are those of `make_adjacent_tr_set`. -/
structure InputOk (n : ℕ) (i : Input) : Prop where
  tails : ∀ tr, Num i.m.nr_w_trans tr → Num n (i.m.w_tails tr)
  heads : ∀ tr, Num i.m.nr_w_trans tr → Num n (i.m.w_heads tr)
  adj : ∀ st, Num n st → i.adj_w.of st = trsOf i.m.w_heads st (i.m.nr_w_trans + 1)

theorem mem_inTransitions (h : Ok n B) (hi : InputOk n i) (hb : Num B.nr_sets b) {tr : ℕ} :
    tr ∈ inTransitions i B b ↔ Num i.m.nr_w_trans tr ∧ B.sets (i.m.w_heads tr) = b := by
  unfold inTransitions places
  simp only [List.mem_flatMap, List.Ico.mem]
  constructor
  · rintro ⟨lc, ⟨hlo, hhi⟩, htr⟩
    have hlc := h.place hb hlo hhi
    rw [hi.adj _ (h.elem lc hlc)] at htr
    simp only [trsOf, List.mem_filter, List.Ico.mem, decide_eq_true_eq] at htr
    refine ⟨⟨htr.1.1, by omega⟩, ?_⟩
    rw [htr.2]
    exact h.sets_elems hb hlo hhi
  · rintro ⟨htr, hset⟩
    have hhead := hi.heads tr htr
    have hmem := (h.mem_iff _ b hhead hb).1 hset
    refine ⟨_, hmem, ?_⟩
    rw [h.elems_locs _ hhead, hi.adj _ hhead]
    simp only [trsOf, List.mem_filter, List.Ico.mem, decide_eq_true_eq, and_true]
    exact ⟨htr.1, by have := htr.2; omega⟩

theorem nodup_inTransitions (h : Ok n B) (hi : InputOk n i) (hb : Num B.nr_sets b) :
    (inTransitions i B b).Nodup := by
  have hadj : ∀ lc ∈ B.places b, i.adj_w.of (B.elems lc) =
      trsOf i.m.w_heads (B.elems lc) (i.m.nr_w_trans + 1) := by
    intro lc hlc
    rw [places, List.Ico.mem] at hlc
    exact hi.adj _ (h.elem lc (h.place hb hlc.1 hlc.2))
  refine List.nodup_flatMap.2 ⟨fun lc hlc => ?_, ?_⟩
  · rw [hadj lc hlc]
    exact (List.Ico.nodup _ _).filter _
  · refine (List.Ico.nodup _ _).pairwise_of_forall_ne fun lc hlc lc' hlc' hne tr htr htr' => ?_
    dsimp only at htr htr'
    rw [hadj lc hlc] at htr
    rw [hadj lc' hlc'] at htr'
    simp only [trsOf, List.mem_filter, decide_eq_true_eq] at htr htr'
    rw [List.Ico.mem] at hlc hlc'
    exact hne (h.elems_inj (h.place hb hlc.1 hlc.2) (h.place hb hlc'.1 hlc'.2)
      (htr.2.symm.trans htr'.2))

/-- **The scan of a splitter.** -/
theorem scan_splitter_spec (h : Ok n B) (hi : InputOk n i) (hfit : SumsFit i.m)
    (hb : Num B.nr_sets b) {ww : Arr ℤ} (hww : ∀ u, Num n u → ww u = MDP_unused_weight) :
    Scanned n i.m ww (inTransitions i B b) (scan_splitter i B b ww) := by
  have hscan : scan_splitter i B b ww = (inTransitions i B b).foldl (add_weight i.m) (ww, []) := by
    rw [inTransitions, List.foldl_flatMap]
    rfl
  rw [hscan]
  have hnd := nodup_inTransitions h hi hb
  have hnum : ∀ tr ∈ inTransitions i B b, Num i.m.nr_w_trans tr := fun tr htr =>
    ((mem_inTransitions h hi hb).1 htr).1
  -- the transitions so far are the first ones of the list
  generalize inTransitions i B b = l at hnd hnum
  induction l using List.reverseRecOn with
  | nil =>
    refine ⟨fun u => ?_, List.nodup_nil, fun u hu => ?_, fun _ _ => rfl⟩
    · simp [Touched]
    · simp [Touched] at hu
  | append_singleton l tr ih =>
    rw [List.foldl_append]
    have hnd' := hnd.of_append_left
    have hnum' : ∀ tr ∈ l, Num i.m.nr_w_trans tr := fun tr htr =>
      hnum tr (List.mem_append_left _ htr)
    have htr : Num i.m.nr_w_trans tr := hnum tr (by simp)
    exact (ih hnd' hnum').next (hww _ (hi.tails tr htr)) (hfit l hnd' hnum' _) (hfit _ hnd hnum _)

/-! ## The marks -/

/-- The elements of `M` are marked, and the stack holds the sets with marks. -/
structure Touching (n : ℕ) (B : RefinablePartition) (M : Set ℕ)
    (p : RefinablePartition × List ℕ) : Prop where
  ok : Ok n p.1
  nr_sets : p.1.nr_sets = B.nr_sets
  sets : p.1.sets = B.sets
  marked : ∀ u, Num n u → (Marked p.1 u ↔ u ∈ M)
  stack : ∀ c, c ∈ p.2 ↔ Num B.nr_sets c ∧ ¬ Clean p.1 c
  nodup : p.2.Nodup

theorem Touching.start (h : Ok n B) (hclean : ∀ c, Num B.nr_sets c → Clean B c) :
    Touching n B ∅ (B, []) where
  ok := h
  nr_sets := rfl
  sets := rfl
  marked u hu := by simpa using h.marked_clean hu (hclean _ (h.set u hu))
  stack c := by simpa using hclean c
  nodup := List.nodup_nil

theorem Touching.touch {M : Set ℕ} {p : RefinablePartition × List ℕ} (h : Touching n B M p)
    (hu : Num n u) (huM : u ∉ M) : Touching n B (insert u M) (touch p u) := by
  have hnot : ¬ Marked p.1 u := by
    rw [h.marked u hu]
    exact huM
  have hset : Num p.1.nr_sets (p.1.sets u) := h.ok.set u hu
  have hmid := (h.ok.mid _ hset).1
  -- the set is put on the stack when it had no marks
  have hmark : (p.1.mark u).1 ≠ 0 ↔ Clean p.1 (p.1.sets u) := by
    have hpos := hset.1
    unfold mark Clean
    dsimp only
    split_ifs with hm
    · exact iff_of_true (by omega) hm
    · exact iff_of_false (by simp) hm
  have hfirst : (p.1.mark u).1 ≠ 0 → (p.1.mark u).1 = p.1.sets u := by
    unfold mark
    dsimp only
    split_ifs
    · exact fun _ => rfl
    · simp
  have hclean : ∀ c, Clean (p.1.mark u).2 c ↔ Clean p.1 c ∧ c ≠ p.1.sets u := by
    intro c
    unfold Clean
    rw [mark_mids, mark_begins]
    split_ifs with hc
    · rw [hc]
      simp only [ne_eq, not_true, and_false, iff_false]
      omega
    · simp [hc]
  refine ⟨mark_ok h.ok hu hnot, h.nr_sets, h.sets, fun v hv => ?_, fun c => ?_, ?_⟩
  · rw [Rbsc.PartRef.touch, mark_marked h.ok hu hnot hv, h.marked v hv, Set.mem_insert_iff, or_comm]
  · rw [Rbsc.PartRef.touch]
    dsimp only
    rw [hclean]
    by_cases hfst : (p.1.mark u).1 ≠ 0
    · rw [if_pos hfst, List.mem_append, List.mem_singleton, hfirst hfst, h.stack c]
      have hset' : Num B.nr_sets (p.1.sets u) := h.nr_sets ▸ hset
      constructor
      · rintro (⟨hc, hcc⟩ | rfl)
        · exact ⟨hc, fun hcc' => hcc hcc'.1⟩
        · exact ⟨hset', fun hcc' => hcc'.2 rfl⟩
      · rintro ⟨hc, hcc⟩
        by_cases hcu : c = p.1.sets u
        · exact Or.inr hcu
        · exact Or.inl ⟨hc, fun hcc' => hcc ⟨hcc', hcu⟩⟩
    · rw [if_neg hfst, h.stack c]
      have hdirty : ¬ Clean p.1 (p.1.sets u) := fun hcl => hfst (hmark.2 hcl)
      refine and_congr_right fun _ => not_congr ⟨fun hcl => ⟨hcl, ?_⟩, fun hcl => hcl.1⟩
      rintro rfl
      exact hdirty hcl
  · rw [Rbsc.PartRef.touch]
    dsimp only
    split_ifs with hfst
    · rw [List.nodup_append]
      refine ⟨h.nodup, List.nodup_singleton _, fun x hx y hy hxy => ?_⟩
      rw [List.mem_singleton.1 hy, hfirst hfst] at hxy
      exact ((h.stack x).1 hx).2 (hxy ▸ hmark.1 hfst)
    · exact h.nodup

/-- **The scan of the touched states** marks those with a sum other than zero. -/
theorem mark_touched_spec (h : Ok n B) (hclean : ∀ c, Num B.nr_sets c → Clean B c) (ww : Arr ℤ)
    {l : List ℕ} (hl : l.Nodup) (hnum : ∀ u ∈ l, Num n u) :
    Touching n B {u | u ∈ l ∧ ww u ≠ 0} (mark_touched ww l B) := by
  unfold mark_touched
  induction l using List.reverseRecOn with
  | nil => simpa using Touching.start h hclean
  | append_singleton l u ih =>
    rw [List.foldl_append, List.foldl_cons, List.foldl_nil]
    have ih := ih hl.of_append_left fun v hv => hnum v (List.mem_append_left _ hv)
    have hul : u ∉ l := fun hul =>
      (List.nodup_append.1 hl).2.2 u hul u (List.mem_singleton_self u) rfl
    by_cases hww : ww u ≠ MDP_zero_weight
    · rw [if_pos hww]
      have hM : {v | v ∈ l ++ [u] ∧ ww v ≠ 0} = insert u {v | v ∈ l ∧ ww v ≠ 0} := by
        ext v
        simp only [Set.mem_ofPred_eq, List.mem_append, List.mem_singleton, Set.mem_insert_iff]
        constructor
        · rintro ⟨hv | hv, hwv⟩
          · exact Or.inr ⟨hv, hwv⟩
          · exact Or.inl hv
        · rintro (rfl | ⟨hv, hwv⟩)
          · exact ⟨Or.inr rfl, hww⟩
          · exact ⟨Or.inl hv, hwv⟩
      rw [hM]
      exact ih.touch (hnum u (by simp)) fun hu => hul hu.1
    · rw [if_neg hww]
      have hM : {v | v ∈ l ++ [u] ∧ ww v ≠ 0} = {v | v ∈ l ∧ ww v ≠ 0} := by
        ext v
        simp only [Set.mem_ofPred_eq, List.mem_append, List.mem_singleton]
        constructor
        · rintro ⟨hv | rfl, hwv⟩
          · exact ⟨hv, hwv⟩
          · exact absurd hwv hww
        · exact fun hv => ⟨Or.inl hv.1, hv.2⟩
      rw [hM]
      exact ih

/-! ## The touched blocks -/

/-- The blocks of the stack are divided one after the other. -/
theorem split_all_divides (h : Ok n B) (ww : Arr ℤ) {l : List ℕ} (hl : l.Nodup)
    (hnum : ∀ c ∈ l, Num B.nr_sets c ∧ ¬ Clean B c) :
    Divides n {c | c ∈ l} ∅ B (l.foldl (split_touched ww) B)
      fun u v => (Marked B u ↔ Marked B v) ∧ (Marked B u → ww u = ww v) := by
  induction l using List.reverseRecOn with
  | nil => simpa using Divides.refl h
  | append_singleton l b ih =>
    rw [List.foldl_append, List.foldl_cons, List.foldl_nil]
    have ih := ih hl.of_append_left fun c hc => hnum c (List.mem_append_left _ hc)
    obtain ⟨hb, hdirty⟩ := hnum b (by simp)
    have hbl : b ∉ {c | c ∈ l} := fun hbl =>
      (List.nodup_append.1 hl).2.2 b hbl b (List.mem_singleton_self b) rfl
    generalize l.foldl (split_touched ww) B = B' at ih
    -- the block is as it was before the others were divided
    obtain ⟨hbegin, -, hmid⟩ := ih.frame b hb hbl
    have hsets : ∀ u, Num n u → (B'.sets u = b ↔ B.sets u = b) := fun u hu =>
      ih.sets_eq_iff hu hb hbl
    have hmarked : ∀ u, Num n u → B.sets u = b → (Marked B' u ↔ Marked B u) := by
      intro u hu hub
      obtain ⟨hs, hloc⟩ := ih.kept u hu (by rw [hub]; exact hbl)
      unfold Marked
      rw [hs, hloc, hub, hmid]
    have hb' : Num B'.nr_sets b := ⟨hb.1, hb.2.trans ih.nr_le⟩
    have hlo : B'.begins b < B'.mids b := by
      have := (h.mid b hb).1
      unfold Clean at hdirty
      omega
    have hdiv := split_touched_divides ih.ok hb' hlo ww
    refine (ih.trans (S := {c | c ∈ l ++ [b]}) hdiv h (fun c _ => by simp)
      (Set.empty_subset _)).congr fun u v hu hv huv hul => ?_
    by_cases hub : B.sets u = b
    · have hvb : B.sets v = b := huv ▸ hub
      have hus := (hsets u hu).2 hub
      rw [hmarked u hu hub, hmarked v hv hvb, hub]
      simp only [hbl, hus, Set.mem_singleton_iff, false_imp_iff, true_imp_iff, true_and]
    · have hus : B'.sets u ∉ ({b} : Set ℕ) := fun hus => hub ((hsets u hu).1 hus)
      have hul' : B.sets u ∈ {c | c ∈ l} := by
        rcases List.mem_append.1 hul with hul | hul
        · exact hul
        · exact absurd (List.mem_singleton.1 hul) hub
      simp only [hus, hul', false_imp_iff, true_imp_iff, and_true]

/-! ## The whole splitter -/

/-- Between the splitters nothing is marked and no slot of `ww` is used. -/
structure Ready (n : ℕ) (s : State) : Prop where
  ok : Ok n s.B
  clean : ∀ c, Num s.B.nr_sets c → Clean s.B c
  unused : ∀ u, Num n u → s.ww u = MDP_unused_weight

/-- The total weight of the transitions of `u` into block `b`. -/
def weightTo (i : Input) (B : RefinablePartition) (b u : ℕ) : ℤ :=
  sumFrom i.m (inTransitions i B b) u

section

variable {ww₀ : Arr ℤ} {p : Arr ℤ × List ℕ} {q : RefinablePartition × List ℕ}

/-- The marked states have the sums of the splitter. -/
theorem ww_of_marked (hscan : Scanned n i.m ww₀ (inTransitions i B b) p)
    (htouch : Touching n B {u | u ∈ p.2 ∧ p.1 u ≠ 0} q) {u : ℕ} (hu : Num n u)
    (hm : Marked q.1 u) : p.1 u = weightTo i B b u :=
  hscan.sum u ((hscan.touched u).1 ((htouch.marked u hu).1 hm).1)

/-- The marked states are those with a weight other than zero. -/
theorem marked_iff_weight (hscan : Scanned n i.m ww₀ (inTransitions i B b) p)
    (htouch : Touching n B {u | u ∈ p.2 ∧ p.1 u ≠ 0} q) {u : ℕ} (hu : Num n u) :
    Marked q.1 u ↔ weightTo i B b u ≠ 0 := by
  constructor
  · intro hm
    rw [← ww_of_marked hscan htouch hu hm]
    exact ((htouch.marked u hu).1 hm).2
  · intro hne
    have ht : Touched i.m (inTransitions i B b) u := by
      by_contra hnt
      exact hne (sumFrom_of_not_touched hnt)
    exact (htouch.marked u hu).2 ⟨(hscan.touched u).2 ht, by rw [hscan.sum u ht]; exact hne⟩

/-- Marks and sums tell states apart as the weights do. -/
theorem same_weight_iff (hscan : Scanned n i.m ww₀ (inTransitions i B b) p)
    (htouch : Touching n B {u | u ∈ p.2 ∧ p.1 u ≠ 0} q) {u v : ℕ} (hu : Num n u) (hv : Num n v) :
    (Marked q.1 u ↔ Marked q.1 v) ∧ (Marked q.1 u → p.1 u = p.1 v) ↔
      weightTo i B b u = weightTo i B b v := by
  have hmu := marked_iff_weight hscan htouch hu
  have hmv := marked_iff_weight hscan htouch hv
  constructor
  · rintro ⟨hiff, heq⟩
    by_cases hm : Marked q.1 u
    · rw [← ww_of_marked hscan htouch hu hm, ← ww_of_marked hscan htouch hv (hiff.1 hm)]
      exact heq hm
    · have hm' : ¬ Marked q.1 v := fun hm' => hm (hiff.2 hm')
      rw [hmu, not_not] at hm
      rw [hmv, not_not] at hm'
      rw [hm, hm']
  · intro heq
    have hiff : Marked q.1 u ↔ Marked q.1 v := by rw [hmu, hmv, heq]
    refine ⟨hiff, fun hm => ?_⟩
    rw [ww_of_marked hscan htouch hu hm, ww_of_marked hscan htouch hv (hiff.1 hm), heq]

end

/-- **One splitter** divides every block by the weights into it. -/
theorem markov_step_divides {s : State} (hi : InputOk n i) (hfit : SumsFit i.m) (h : Ready n s)
    (hb : Num s.B.nr_sets s.markov_splitter) :
    Ready n (markov_step i s) ∧ Divides n Set.univ ∅ s.B (markov_step i s).B
      fun u v => weightTo i s.B s.markov_splitter u = weightTo i s.B s.markov_splitter v := by
  have hscan := scan_splitter_spec h.ok hi hfit hb h.unused
  have hstates : ∀ u, Touched i.m (inTransitions i s.B s.markov_splitter) u → Num n u := by
    rintro u ⟨tr, htr, rfl⟩
    exact hi.tails tr ((mem_inTransitions h.ok hi hb).1 htr).1
  unfold markov_step
  dsimp only
  generalize scan_splitter i s.B s.markov_splitter s.ww = p at hscan
  have hnum : ∀ u ∈ p.2, Num n u := fun u hu => hstates u ((hscan.touched u).1 hu)
  have htouch := mark_touched_spec h.ok h.clean p.1 hscan.nodup hnum
  generalize mark_touched p.1 p.2 s.B = q at htouch
  have hdiv := split_all_divides htouch.ok p.1 (List.nodup_reverse.2 htouch.nodup) fun c hc => by
    rw [htouch.nr_sets, ← htouch.stack c]
    exact List.mem_reverse.1 hc
  -- a block that is not on the stack has no marked state
  have hoff : ∀ u, Num n u → q.1.sets u ∉ {c | c ∈ q.2.reverse} → ¬ Marked q.1 u := by
    intro u hu hus hm
    refine htouch.ok.marked_clean hu ?_ hm
    by_contra hdirty
    refine hus (List.mem_reverse.2 ((htouch.stack _).2 ⟨?_, hdirty⟩))
    rw [← htouch.nr_sets]
    exact htouch.ok.set u hu
  generalize q.2.reverse.foldl (split_touched p.1) q.1 = B' at hdiv
  have hnr := htouch.nr_sets
  have hclean : ∀ c, Num B'.nr_sets c → Clean B' c := by
    intro c hc
    by_cases hcq : c ∈ {c | c ∈ q.2.reverse} ∨ q.1.nr_sets < c
    · exact hdiv.clean c hc hcq (Set.notMem_empty c)
    · rw [not_or, not_lt] at hcq
      obtain ⟨hbegin, -, hmid⟩ := hdiv.frame c ⟨hc.1, hcq.2⟩ hcq.1
      have hclean : Clean q.1 c := by
        by_contra hdirty
        exact hcq.1 (List.mem_reverse.2 ((htouch.stack c).2 ⟨⟨hc.1, hnr ▸ hcq.2⟩, hdirty⟩))
      unfold Clean
      rw [hmid, hbegin, hclean]
  refine ⟨⟨hdiv.ok, hclean, fun u hu => ?_⟩, hdiv.ok, hnr ▸ hdiv.nr_le,
    fun u _ hus => absurd (Set.mem_univ _) hus, fun c _ hc => absurd (Set.mem_univ c) hc,
    fun u v hu hv => ?_, fun u hu => ?_, fun c hc _ _ => hclean c hc⟩
  · dsimp only
    rw [Arr.foldl_set_const]
    split_ifs with hup
    · rfl
    · rw [hscan.other u fun ht => hup ((hscan.touched u).2 ht), h.unused u hu]
  · rw [hdiv.together u v hu hv, htouch.sets]
    refine and_congr_right fun huv => ?_
    rw [← htouch.sets] at huv ⊢
    by_cases hus : q.1.sets u ∈ {c | c ∈ q.2.reverse}
    · simp only [hus, Set.mem_univ, true_imp_iff]
      exact same_weight_iff hscan htouch hu hv
    · have hmu := hoff u hu hus
      have hmv := hoff v hv (huv ▸ hus)
      have := (same_weight_iff hscan htouch hu hv).1
        ⟨iff_of_false hmu hmv, fun hm => absurd hm hmu⟩
      simp only [hus, this, false_imp_iff, implies_true]
  · rw [← htouch.sets, ← hnr]
    exact hdiv.fresh u hu

end Rbsc.PartRef
