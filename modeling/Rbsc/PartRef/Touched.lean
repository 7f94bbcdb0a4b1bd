import Rbsc.PartRef.Partition

/-!
# One touched block

`markov_split` divides a touched block in three steps: the marked states from the others, then the
states with the majority candidate's sum from the others, and these by `multisplit`, which sorts
them and cuts where the sum changes.  Together they divide the block by the sum
(`split_touched_divides`).  That the candidate is the sum of some state is enough
(`majority_candidate_mem`): it need not be the majority.
-/

namespace Rbsc.PartRef

open Arrays ForLoop

namespace RefinablePartition

variable {n : ℕ} {B : RefinablePartition} {b u v : ℕ} {ww : Arr ℤ}

/-! ## `multisplit` -/

/-- A loop that writes the places of elements. -/
theorem foldl_locs {a : ℕ → ℕ} (hinj : ∀ i j, Num n i → Num n j → a i = a j → i = j) {lo hi : ℕ}
    (hlo : 1 ≤ lo) (hle : lo ≤ hi) (hhi : hi ≤ n + 1) (locs : Arr ℕ) {i : ℕ} (hi' : Num n i) :
    (List.Ico lo hi).foldl (fun locs lc => locs.set (a lc) lc) locs (a i) =
      if lo ≤ i ∧ i < hi then i else locs (a i) := by
  refine foldl_Ico (P := fun k (l : Arr ℕ) => k ≤ n + 1 →
    l (a i) = if lo ≤ i ∧ i < k then i else locs (a i)) hle (fun _ => ?_)
    (fun k l hk hkh ih hkn => ?_) hhi
  · rw [if_neg (by omega)]
  · by_cases hik : i = k
    · rw [hik, Arr.set_self, if_pos ⟨hk, by omega⟩]
    · have hne : a i ≠ a k := fun h => hik (hinj i k hi' ⟨by omega, by omega⟩ h)
      rw [Arr.set_of_ne _ _ hne, ih (by omega)]
      refine if_congr ?_ rfl rfl
      omega

theorem Ok.elems_inj (h : Ok n B) {i j : ℕ} (hi : Num n i) (hj : Num n j)
    (hij : B.elems i = B.elems j) : i = j := by
  rw [← h.locs_elems i hi, hij, h.locs_elems j hj]

/-- The places of a set change among themselves. -/
theorem rearranged_ok (h : Ok n B) (hb : Num B.nr_sets b) {elems : Arr ℕ}
    (hre : Rearranges (B.begins b) (B.ends b) B.elems elems) :
    let B' : RefinablePartition := { B with
      elems := elems
      locs := (B.places b).foldl (fun locs lc => locs.set (elems lc) lc) B.locs }
    Ok n B' ∧ ∀ u, Num n u → B.sets u ≠ b → B'.locs u = B.locs u := by
  intro B'
  obtain ⟨hseg₁, hseg₂, hseg₃⟩ := h.segment b hb
  obtain ⟨σ, hσ, he⟩ := hre
  -- the permutation keeps the segment and the numbers
  have hin := perm_mem_iff hσ
  have hnum : ∀ i, Num n i → Num n (σ i) := by
    intro i hi
    by_cases hib : B.begins b ≤ i ∧ i < B.ends b
    · have := (hin i).2 hib
      exact h.place hb this.1 this.2
    · rw [hσ i hib]
      exact hi
  have hinj : ∀ i j, Num n i → Num n j → elems i = elems j → i = j := by
    intro i j hi hj hij
    rw [he, he] at hij
    exact σ.injective (h.elems_inj (hnum i hi) (hnum j hj) hij)
  have hlocs : ∀ i, Num n i → B'.locs (elems i) = i := by
    intro i hi
    have := foldl_locs hinj hseg₁ hseg₂.le hseg₃ B.locs hi
    apply this.trans
    split_ifs with hib
    · rfl
    · rw [he, hσ i hib, h.locs_elems i hi]
  -- the new place of an element
  have hplace : ∀ u, Num n u → ∃ i, Num n i ∧ σ i = B.locs u ∧ elems i = u ∧ B'.locs u = i := by
    intro u hu
    have hσi : σ (σ.symm (B.locs u)) = B.locs u := σ.apply_symm_apply _
    have hi : Num n (σ.symm (B.locs u)) := by
      by_cases hib : B.begins b ≤ σ.symm (B.locs u) ∧ σ.symm (B.locs u) < B.ends b
      · exact h.place hb hib.1 hib.2
      · have := hσ _ hib
        rw [hσi] at this
        rw [← this]
        exact h.loc u hu
    have hei : elems (σ.symm (B.locs u)) = u := by rw [he, hσi, h.elems_locs u hu]
    refine ⟨_, hi, hσi, hei, ?_⟩
    conv_lhs => rw [← hei]
    exact hlocs _ hi
  have hkept : ∀ u, Num n u → B.sets u ≠ b → B'.locs u = B.locs u := by
    intro u hu hub
    obtain ⟨i, hi, hσi, -, hli⟩ := hplace u hu
    have hout : ¬ (B.begins b ≤ i ∧ i < B.ends b) := by
      rw [← hin i, hσi, ← h.mem_iff u b hu hb]
      exact hub
    rw [hli, ← hσi, hσ i hout]
  have hloc : ∀ u, Num n u → Num n (B'.locs u) := by
    intro u hu
    obtain ⟨i, hi, -, -, hli⟩ := hplace u hu
    rw [hli]
    exact hi
  -- an element stays in its segment
  have hsegment : ∀ u, Num n u → B.sets u = b →
      B.begins b ≤ B'.locs u ∧ B'.locs u < B.ends b := by
    intro u hu hub
    obtain ⟨i, -, hσi, -, hli⟩ := hplace u hu
    rw [hli, ← hin i, hσi, ← h.mem_iff u b hu hb]
    exact hub
  refine ⟨⟨h.size, fun lc hlc => ?_, hloc, hlocs, fun u hu => ?_, h.set, fun u c hu hc => ?_, h.segment,
    h.mid⟩, hkept⟩
  · show Num n (elems lc)
    rw [he]
    exact h.elem _ (hnum lc hlc)
  · obtain ⟨i, -, -, hei, hli⟩ := hplace u hu
    rw [hli]
    exact hei
  · show B.sets u = c ↔ B.begins c ≤ B'.locs u ∧ B'.locs u < B.ends c
    by_cases hub : B.sets u = b
    · have hseg := hsegment u hu hub
      constructor
      · rintro rfl
        rw [hub]
        exact hseg
      · intro hcu
        rw [hub, ← h.sets_elems hb hseg.1 hseg.2, h.sets_elems hc hcu.1 hcu.2]
    · rw [hkept u hu hub]
      exact h.mem_iff u c hu hc

theorem sort_set_divides (h : Ok n B) (hb : Num B.nr_sets b) (hclean : Clean B b) (ww : Arr ℤ) :
    Divides n {b} ∅ B (B.sort_set b ww) fun _ _ => True := by
  have hseg := h.segment b hb
  have hsize := h.size
  obtain ⟨-, hre⟩ := heapsort_sorted hseg.2.1.le (by omega) ww B.elems
  obtain ⟨hok, hkept⟩ := rearranged_ok h hb hre
  refine ⟨hok, le_rfl, fun u hu hub => ⟨rfl, hkept u hu hub⟩, fun _ _ _ => ⟨rfl, rfl, rfl⟩,
    fun u v _ _ => ?_, fun _ _ => Or.inl rfl, fun c hc hcb _ => ?_⟩
  · simp [sort_set]
  · rcases hcb with hcb | hcb
    · rw [Set.mem_singleton_iff.1 hcb]
      exact hclean
    · exact absurd hc.2 (not_le.2 hcb)

/-- Where the sum changes: cutting between places `lc - 1` and `lc` of an increasing row. -/
theorem cut_iff {f : ℕ → ℤ} {lo hi lc x y s : ℕ}
    (hmono : ∀ i k, lo ≤ i → i < k → k < hi → f i ≤ f k)
    (hlc : lo < lc) (hlch : lc < hi) (hne : f lc ≠ f (lc - 1)) (hs : s ≤ lc - 1) (hx : lo ≤ x)
    (hy : lo ≤ y)
    (hset : f (min x (lc - 1)) = f (min y (lc - 1)) → (s ≤ x ↔ s ≤ y)) :
    (f (min x (lc - 1)) = f (min y (lc - 1)) ∧ (s ≤ x → (x < lc ↔ y < lc))) ↔
      f (min x lc) = f (min y lc) := by
  have hstep : f (lc - 1) < f lc := lt_of_le_of_ne (hmono _ _ (by omega) (by omega) hlch) hne.symm
  -- below `lc` the row has smaller values
  have hbelow : ∀ i, lo ≤ i → i < lc → f i < f lc := by
    intro i hi hil
    by_cases hie : i = lc - 1
    · rw [hie]
      exact hstep
    · exact (hmono i (lc - 1) hi (by omega) (by omega)).trans_lt hstep
  by_cases hxl : x < lc
  · rw [min_eq_left (show x ≤ lc - 1 by omega), min_eq_left hxl.le] at *
    by_cases hyl : y < lc
    · rw [min_eq_left (show y ≤ lc - 1 by omega), min_eq_left hyl.le]
      simp [hxl, hyl]
    · rw [min_eq_right (show lc - 1 ≤ y by omega), min_eq_right (show lc ≤ y by omega)] at *
      have := hbelow x hx hxl
      constructor
      · rintro ⟨heq, hsx⟩
        have := hsx ((hset heq).2 (by omega))
        omega
      · intro heq
        omega
  · rw [min_eq_right (show lc - 1 ≤ x by omega), min_eq_right (show lc ≤ x by omega)] at *
    by_cases hyl : y < lc
    · rw [min_eq_left (show y ≤ lc - 1 by omega), min_eq_left hyl.le] at *
      have := hbelow y hy hyl
      constructor
      · rintro ⟨-, hsx⟩
        have := hsx (by omega)
        omega
      · intro heq
        omega
    · rw [min_eq_right (show lc - 1 ≤ y by omega), min_eq_right (show lc ≤ y by omega)]
      simp [hxl, hyl]

/-- The loop of `multisplit` before place `lc`: the sorted set `b` of `B₁` is divided as if all sums
from place `lc - 1` on were equal, and `ss` is the part with these places. -/
structure Cutting (n : ℕ) (ww : Arr ℤ) (b : ℕ) (B B₁ : RefinablePartition) (lc : ℕ)
    (st : Multisplit) : Prop where
  divides : Divides n {b} ∅ B st.B fun u v =>
    ww (B₁.elems (min (B₁.locs u) (lc - 1))) = ww (B₁.elems (min (B₁.locs v) (lc - 1)))
  elems : st.B.elems = B₁.elems
  locs : st.B.locs = B₁.locs
  num : Num st.B.nr_sets st.ss
  part : st.ss = b ∨ B.nr_sets < st.ss
  begins : st.B.begins st.ss ≤ lc - 1
  ends : st.B.ends st.ss = B₁.ends b
  value : st.value = ww (B₁.elems (lc - 1))

/-- The set is cut before place `lc`. -/
theorem Cutting.cut {B₁ : RefinablePartition} {lc : ℕ} {st : Multisplit} (hok : Ok n B)
    (h₁ : Ok n B₁)
    (hsets : B₁.sets = B.sets) (hb : Num B₁.nr_sets b)
    (hmono : ∀ i k, B₁.begins b ≤ i → i < k → k < B₁.ends b →
      ww (B₁.elems i) ≤ ww (B₁.elems k))
    (hc : Cutting n ww b B B₁ lc st) (hlc : B₁.begins b < lc) (hlch : lc < B₁.ends b)
    (hne : ww (B₁.elems lc) ≠ st.value) :
    Cutting n ww b B B₁ (lc + 1) (multisplit_step ww st lc) := by
  have hst := hc.divides.ok
  have hseg := hst.segment _ hc.num
  have hbeg := hc.begins
  have hend := hc.ends
  have hmids := set_mids_divides hst (b := st.ss) (m := lc) (by omega) (by omega)
  have hstep : multisplit_step ww st lc =
      { ss := (split { st.B with mids := st.B.mids.set st.ss lc } st.ss).1
        value := ww ((split { st.B with mids := st.B.mids.set st.ss lc } st.ss).2.elems lc)
        B := (split { st.B with mids := st.B.mids.set st.ss lc } st.ss).2 } := by
    unfold multisplit_step
    rw [hc.elems, if_neg hne]
  rw [hstep]
  generalize hB₂ : { st.B with mids := st.B.mids.set st.ss lc } = B₂ at hmids ⊢
  have hnum₂ : Num B₂.nr_sets st.ss := by
    rw [← hB₂]
    exact hc.num
  have hmid : B₂.mids st.ss = lc := by
    rw [← hB₂]
    exact Arr.set_self ..
  have hbegins : B₂.begins = st.B.begins := by rw [← hB₂]
  have hends : B₂.ends = st.B.ends := by rw [← hB₂]
  have hsets₂ : B₂.sets = st.B.sets := by rw [← hB₂]
  have helems : B₂.elems = B₁.elems := by rw [← hB₂, ← hc.elems]
  have hlocs : B₂.locs = B₁.locs := by rw [← hB₂, ← hc.locs]
  have hlo : B₂.begins st.ss < B₂.mids st.ss := by rw [hbegins, hmid]; omega
  have hhi : B₂.mids st.ss < B₂.ends st.ss := by rw [hends, hmid]; omega
  obtain ⟨q, hs⟩ := split_into hmids.ok hnum₂ hlo hhi
  have hdiv := hs.divides hmids.ok hnum₂ hlo hhi
  have hr := hs.numbers
  have hnr₂ : B₂.nr_sets = st.B.nr_sets := by rw [← hB₂]
  have hle := hc.divides.nr_le
  have hpart := hc.part
  constructor
  · -- the parts so far, and the new cut in `ss`
    have htwo := hmids.part hdiv hst (Or.inl rfl) subset_rfl
    refine (hc.divides.part htwo hok hpart (Set.empty_subset _)).congr fun u v hu hv huv hub => ?_
    have hub' : B.sets u = b := hub
    have hvb' : B.sets v = b := huv ▸ hub'
    have hxu := (h₁.mem_iff u b hu hb).1 (by rw [hsets]; exact hub')
    have hxv := (h₁.mem_iff v b hv hb).1 (by rw [hsets]; exact hvb')
    have hmem : ∀ w, Num n w → B.sets w = b →
        (st.B.sets w = st.ss ↔ st.B.begins st.ss ≤ B₁.locs w) := by
      intro w hw hwb
      have hxw := (h₁.mem_iff w b hw hb).1 (by rw [hsets]; exact hwb)
      rw [hst.mem_iff w _ hw hc.num, hc.locs]
      omega
    have hmarked : ∀ w, st.B.sets w = st.ss → (Marked B₂ w ↔ B₁.locs w < lc) := by
      intro w hws
      unfold Marked
      rw [hsets₂, hws, hmid, hlocs]
    have hsame : ww (B₁.elems (min (B₁.locs u) (lc - 1))) =
        ww (B₁.elems (min (B₁.locs v) (lc - 1))) → st.B.sets u = st.B.sets v := fun heq =>
      (hc.divides.together u v hu hv).2 ⟨huv, fun _ => heq⟩
    have hiff := cut_iff (f := fun i => ww (B₁.elems i)) (s := st.B.begins st.ss)
      hmono hlc hlch (by rw [← hc.value]; exact hne) hbeg hxu.1 hxv.1 fun heq => by
        rw [← hmem u hu hub', ← hmem v hv hvb', hsame heq]
    rw [show lc + 1 - 1 = lc by omega, ← hiff]
    refine and_congr_right fun heq => ?_
    rw [hsets₂]
    refine ⟨fun hd hsu => ?_, fun hd hus => ⟨trivial, fun _ => ?_⟩⟩
    · have hus := (hmem u hu hub').2 hsu
      rw [← hmarked u hus, ← hmarked v (hsame heq ▸ hus)]
      exact (hd hus).2 hus
    · rw [hmarked u hus, hmarked v (hsame heq ▸ hus)]
      exact hd ((hmem u hu hub').1 hus)
  · exact hs.elems.trans helems
  · exact hs.locs.trans hlocs
  · exact (hs.num hnum₂).1
  · dsimp only
    omega
  · dsimp only
    rw [hs.begins, if_pos rfl, hmid]
    omega
  · dsimp only
    rw [hs.ends, if_pos rfl, hends, hc.ends]
  · dsimp only
    rw [hs.elems, helems, show lc + 1 - 1 = lc by omega]

/-- **`multisplit`** divides a set by `ww`. -/
theorem multisplit_divides (h : Ok n B) (hb : Num B.nr_sets b) (hclean : Clean B b) (ww : Arr ℤ) :
    Divides n {b} ∅ B (B.multisplit b ww) fun u v => ww u = ww v := by
  have hsort := sort_set_divides h hb hclean ww
  have hseg := h.segment b hb
  have hsize := h.size
  obtain ⟨hmono, -⟩ := heapsort_sorted hseg.2.1.le (by omega) ww B.elems
  unfold multisplit
  dsimp only
  generalize hB₁ : B.sort_set b ww = B₁ at hsort ⊢
  have hok := hsort.ok
  have hsets : B₁.sets = B.sets := by rw [← hB₁]; rfl
  have hnr : B₁.nr_sets = B.nr_sets := by rw [← hB₁]; rfl
  have hbegins : B₁.begins = B.begins := by rw [← hB₁]; rfl
  have hends : B₁.ends = B.ends := by rw [← hB₁]; rfl
  have hmono' : ∀ i k, B₁.begins b ≤ i → i < k → k < B₁.ends b →
      ww (B₁.elems i) ≤ ww (B₁.elems k) := by
    rw [hbegins, hends, ← hB₁]
    exact hmono
  have hmem : ∀ u, Num n u → (B.sets u = b ↔ B.begins b ≤ B₁.locs u ∧ B₁.locs u < B.ends b) := by
    intro u hu
    rw [← hsets, hok.mem_iff u b hu (hnr ▸ hb), hbegins, hends]
  have hloop := foldl_Ico (P := Cutting n ww b B B₁) (f := multisplit_step ww)
    (a := B.begins b + 1) (b := B.ends b) (s := ⟨b, ww (B₁.elems (B.begins b)), B₁⟩) hseg.2.1
    ⟨?_, rfl, rfl, hnr ▸ hb, Or.inl rfl, ?_, rfl, rfl⟩ fun lc st hlo hhi hc => ?_
  · -- after the last place the row is divided by its sums
    refine hloop.divides.congr fun u v hu hv huv hub => ?_
    have hub' : B.sets u = b := hub
    have hxu := (hmem u hu).1 hub'
    have hxv := (hmem v hv).1 (huv ▸ hub')
    rw [min_eq_left (by omega), min_eq_left (by omega), hok.elems_locs u hu, hok.elems_locs v hv]
  · -- before the first one it is not divided
    refine hsort.congr fun u v hu hv huv hub => ?_
    have hub' : B.sets u = b := hub
    have hxu := (hmem u hu).1 hub'
    have hxv := (hmem v hv).1 (huv ▸ hub')
    rw [min_eq_right (by omega), min_eq_right (by omega)]
    simp
  · rw [hbegins, Nat.add_sub_cancel]
  · by_cases heq : ww (B₁.elems lc) = st.value
    · -- the sum stays, and so does the division
      have hstep : multisplit_step ww st lc = st := by
        unfold multisplit_step
        rw [hc.elems, if_pos heq]
      rw [hstep]
      have hval := hc.value
      refine ⟨hc.divides.congr fun u v _ _ _ _ => ?_, hc.elems, hc.locs, hc.num, hc.part, ?_,
        hc.ends, ?_⟩
      · have hmin : ∀ x, ww (B₁.elems (min x (lc - 1))) = ww (B₁.elems (min x (lc + 1 - 1))) := by
          intro x
          by_cases hx : x ≤ lc - 1
          · rw [min_eq_left hx, min_eq_left (by omega)]
          · rw [min_eq_right (by omega), min_eq_right (by omega), ← hval, ← heq]
            rfl
        rw [hmin, hmin]
      · have := hc.begins
        omega
      · rw [← heq]
        rfl
    · exact Cutting.cut h hok hsets (hnr ▸ hb) hmono' hc (by rw [hbegins]; omega)
        (by rw [hends]; exact hhi) heq

/-! ## The majority candidate -/

/-- The candidate is the sum of a state of the block. -/
theorem majority_candidate_mem (h : Ok n B) (hb : Num B.nr_sets b) (ww : Arr ℤ) :
    ∃ u, Num n u ∧ B.sets u = b ∧ ww u = majority_candidate ww B b := by
  have hseg := (h.segment b hb).2.1
  have hloop := foldl_Ico (f := majority_step ww B) (s := (0, MDP_zero_weight))
    (P := fun lc p => lc = B.begins b ∧ p.1 = 0 ∨
      ∃ i, B.begins b ≤ i ∧ i < lc ∧ ww (B.elems i) = p.2) hseg.le (Or.inl ⟨rfl, rfl⟩)
    fun lc p hlo _ hp => ?_
  · rcases hloop with hloop | ⟨i, hlo, hhi, hi⟩
    · omega
    · exact ⟨_, h.elem i (h.place hb hlo hhi), h.sets_elems hb hlo hhi, hi⟩
  · right
    unfold majority_step
    dsimp only
    by_cases hcount : p.1 = 0
    · rw [if_pos hcount]
      exact ⟨lc, hlo, by omega, rfl⟩
    · obtain ⟨i, hi₁, hi₂, hi₃⟩ := hp.resolve_left fun hp => hcount hp.2
      refine ⟨i, hi₁, by omega, ?_⟩
      rw [if_neg hcount]
      split_ifs
      · exact hi₃
      · exact hi₃

/-- Before place `lc` the loop has marked the states with the candidate's sum among the places
before. -/
structure Marking (n : ℕ) (ww : Arr ℤ) (pmc : ℤ) (b : ℕ) (B : RefinablePartition) (lc : ℕ)
    (B' : RefinablePartition) : Prop where
  divides : Divides n {b} {b} B B' fun _ _ => True
  nr_sets : B'.nr_sets = B.nr_sets
  sets : B'.sets = B.sets
  marked : ∀ u, Num n u → B.sets u = b → (Marked B' u ↔ B.locs u < lc ∧ ww u = pmc)
  elems : ∀ i, lc ≤ i → B'.elems i = B.elems i
  mids : B'.mids b ≤ lc

theorem Marking.next {pmc : ℤ} {lc : ℕ} {B' : RefinablePartition} (h : Ok n B)
    (hb : Num B.nr_sets b)
    (hlo : B.begins b ≤ lc) (hhi : lc < B.ends b) (hm : Marking n ww pmc b B lc B') :
    Marking n ww pmc b B (lc + 1)
      (if ww (B'.elems lc) = pmc then (B'.mark (B'.elems lc)).2 else B') := by
  have hlc := h.place hb hlo hhi
  rw [hm.elems lc le_rfl]
  have hel := h.elem lc hlc
  have hset := h.sets_elems hb hlo hhi
  have hset' : B'.sets (B.elems lc) = b := by rw [hm.sets]; exact hset
  have hloc := h.locs_elems lc hlc
  have hloc' : B'.locs (B.elems lc) = lc := by
    conv_lhs => rw [← hm.elems lc le_rfl]
    exact hm.divides.ok.locs_elems lc hlc
  -- the state at place `lc` is the only one between the two bounds
  have hnext : ∀ u, Num n u → (B.locs u < lc + 1 ↔ B.locs u < lc ∨ u = B.elems lc) := by
    intro u hu
    constructor
    · intro hul
      by_cases heq : B.locs u = lc
      · right
        rw [← heq, h.elems_locs u hu]
      · left
        omega
    · rintro (hul | rfl)
      · omega
      · omega
  have hmids := hm.mids
  by_cases hpmc : ww (B.elems lc) = pmc
  · rw [if_pos hpmc]
    have hnot : ¬ Marked B' (B.elems lc) := by
      rw [hm.marked _ hel hset, hloc]
      omega
    have hmark := mark_divides hm.divides.ok hel hnot
    rw [hset'] at hmark
    refine ⟨(hm.divides.part hmark h (Or.inl rfl) subset_rfl).congr fun u v _ _ _ _ => by simp,
      hm.nr_sets, hm.sets, fun u hu hub => ?_, fun i hi => ?_, ?_⟩
    · rw [mark_marked hm.divides.ok hel hnot hu, hm.marked u hu hub, hnext u hu]
      constructor
      · rintro (⟨hul, hu'⟩ | rfl)
        · exact ⟨Or.inl hul, hu'⟩
        · exact ⟨Or.inr rfl, hpmc⟩
      · rintro ⟨hul | rfl, hu'⟩
        · exact Or.inl ⟨hul, hu'⟩
        · exact Or.inr rfl
    · rw [mark_elems, hset', hloc', if_neg (by omega), if_neg (by omega), hm.elems i (by omega)]
    · rw [mark_mids, hset', if_pos rfl]
      omega
  · rw [if_neg hpmc]
    refine ⟨hm.divides, hm.nr_sets, hm.sets, fun u hu hub => ?_, fun i hi => hm.elems i (by omega),
      by omega⟩
    rw [hm.marked u hu hub, hnext u hu]
    constructor
    · rintro ⟨hul, hu'⟩
      exact ⟨Or.inl hul, hu'⟩
    · rintro ⟨hul | rfl, hu'⟩
      · exact ⟨hul, hu'⟩
      · exact absurd hu' hpmc

theorem mark_candidate_spec (h : Ok n B) (hb : Num B.nr_sets b) (hclean : Clean B b) (ww : Arr ℤ)
    (pmc : ℤ) : Marking n ww pmc b B (B.ends b) (mark_candidate ww pmc b B) := by
  have hseg := h.segment b hb
  refine foldl_Ico (P := Marking n ww pmc b B) hseg.2.1.le ⟨?_, rfl, rfl, fun u hu hub => ?_,
    fun _ _ => rfl, hclean.le⟩ fun lc B' hlo hhi hm => Marking.next h hb hlo hhi hm
  · have := set_mids_divides h (b := b) (m := B.mids b) (h.mid b hb).1 (h.mid b hb).2
    rwa [Arr.set_get] at this
  · have hmem := (h.mem_iff u b hu hb).1 hub
    have hclean' : B.mids b = B.begins b := hclean
    unfold Marked
    rw [hub, hclean']
    omega

/-! ## The three steps -/

/-- By the candidate, and the others by `multisplit`. -/
theorem split_by_ww (h : Ok n B) (hb : Num B.nr_sets b) (hclean : Clean B b) (ww : Arr ℤ) :
    let B₁ := mark_candidate ww (majority_candidate ww B b) b B
    Divides n {b} ∅ B
      (if (B₁.split b).1 ≠ 0 then (B₁.split b).2.multisplit (B₁.split b).1 ww else (B₁.split b).2)
      fun u v => ww u = ww v := by
  intro B₁
  have hm : Marking n ww (majority_candidate ww B b) b B (B.ends b) B₁ :=
    mark_candidate_spec h hb hclean ww _
  obtain ⟨x, hx, hxb, hxw⟩ := majority_candidate_mem h hb ww
  have hok := hm.divides.ok
  have hb' : Num B₁.nr_sets b := hm.nr_sets ▸ hb
  have hmarked : ∀ u, Num n u → B.sets u = b →
      (Marked B₁ u ↔ ww u = majority_candidate ww B b) := by
    intro u hu hub
    rw [hm.marked u hu hub]
    exact and_iff_right ((h.mem_iff u b hu hb).1 hub).2
  have hmid := hok.mid b hb'
  have hxm : Marked B₁ x := (hmarked x hx hxb).2 hxw
  have hxl := (hok.mem_iff x b hx hb').1 (by rw [hm.sets]; exact hxb)
  have hne : B₁.begins b ≠ B₁.mids b := by
    unfold Marked at hxm
    rw [hm.sets, hxb] at hxm
    omega
  by_cases hwhole : B₁.mids b = B₁.ends b
  · -- all sums are that of the candidate
    obtain ⟨hr, -, hdiv⟩ := split_whole hok hb' (Or.inr hwhole)
    rw [if_neg (by rw [hr]; simp)]
    refine (hm.divides.part hdiv h (Or.inl rfl) subset_rfl).congr fun u v hu hv huv hub => ?_
    have hub' : B.sets u = b := hub
    have hall : ∀ w, Num n w → B.sets w = b → ww w = majority_candidate ww B b := by
      intro w hw hwb
      rw [← hmarked w hw hwb]
      have := (hok.mem_iff w b hw hb').1 (by rw [hm.sets]; exact hwb)
      unfold Marked
      rw [hm.sets, hwb, hwhole]
      exact this.2
    rw [hall u hu hub', hall v hv (huv ▸ hub')]
    simp
  · have hlo : B₁.begins b < B₁.mids b := by omega
    have hhi : B₁.mids b < B₁.ends b := by omega
    obtain ⟨q, hs⟩ := split_into hok hb' hlo hhi
    have hdiv := hs.divides hok hb' hlo hhi
    have hnum := hs.num hb'
    have hrb := hs.numbers
    have hnr := hm.nr_sets
    have hr : (B₁.split b).1 ≠ 0 := by
      have := hnum.1.1
      omega
    rw [if_pos hr]
    have hclean' : Clean (B₁.split b).2 (B₁.split b).1 := by
      refine hdiv.clean _ hnum.1 ?_ (Set.notMem_empty _)
      rw [Set.mem_singleton_iff]
      omega
    have hmulti := multisplit_divides hdiv.ok hnum.1 hclean' ww
    have htwo := hdiv.part hmulti hok (by omega) (Set.empty_subset _)
    refine (hm.divides.part htwo h (Or.inl rfl) subset_rfl).congr fun u v hu hv huv hub => ?_
    have hub' : B.sets u = b := hub
    have hus : B₁.sets u = b := by rw [hm.sets]; exact hub'
    rw [hmarked u hu hub', hmarked v hv (huv ▸ hub'), hs.sets_eq_unmarked hok hb' hu,
      hmarked u hu hub']
    simp only [hus, true_and, true_imp_iff]
    constructor
    · rintro ⟨hiff, heq⟩
      by_cases huw : ww u = majority_candidate ww B b
      · rw [huw, hiff.1 huw]
      · exact heq huw
    · intro heq
      rw [heq]
      exact ⟨Iff.rfl, fun _ => rfl⟩

/-- **A touched block** is divided into its unmarked states and, among the marked ones, by the
sum. -/
theorem split_touched_divides (h : Ok n B) (hb : Num B.nr_sets b) (hlo : B.begins b < B.mids b)
    (ww : Arr ℤ) :
    Divides n {b} ∅ B (split_touched ww B b)
      fun u v => (Marked B u ↔ Marked B v) ∧ (Marked B u → ww u = ww v) := by
  unfold split_touched
  dsimp only
  by_cases hwhole : B.mids b = B.ends b
  · -- all states are marked
    obtain ⟨hr, hsets, hdiv⟩ := split_whole h hb (Or.inr hwhole)
    have hb0 : b ≠ (B.split b).1 := by
      have := hb.1
      omega
    rw [if_neg hb0]
    have hb' : Num (B.split b).2.nr_sets b := ⟨hb.1, hb.2.trans hdiv.nr_le⟩
    have hclean := hdiv.clean b hb' (Or.inl rfl) (Set.notMem_empty _)
    have hby := split_by_ww hdiv.ok hb' hclean ww
    refine (hdiv.part hby h (Or.inl rfl) (Set.empty_subset _)).congr fun u v hu hv huv hub => ?_
    have hub' : B.sets u = b := hub
    have hall : ∀ w, Num n w → B.sets w = b → Marked B w := by
      intro w hw hwb
      unfold Marked
      rw [hwb, hwhole]
      exact ((h.mem_iff w b hw hb).1 hwb).2
    have hmu := hall u hu hub'
    have hmv := hall v hv (huv ▸ hub')
    rw [hsets]
    simp [hmu, hmv, hub']
  · have hhi : B.mids b < B.ends b := by
      have := (h.mid b hb).2
      omega
    obtain ⟨q, hs⟩ := split_into h hb hlo hhi
    have hdiv := hs.divides h hb hlo hhi
    have hnum := hs.num hb
    have hqb := hs.numbers
    rw [hs.marked_part hb]
    have hclean : Clean (B.split b).2 q := by
      refine hdiv.clean q hnum.2.1 ?_ (Set.notMem_empty _)
      rw [Set.mem_singleton_iff]
      omega
    have hby := split_by_ww hdiv.ok hnum.2.1 hclean ww
    refine (hdiv.part hby h (by omega) (Set.empty_subset _)).congr fun u v hu _ _ hub => ?_
    have hub' : B.sets u = b := hub
    rw [hs.sets_eq_marked h hb hu]
    simp [hub']

end RefinablePartition

end Rbsc.PartRef
