import Rbsc.PartRef.Heap

/-!
# Refinable partitions

What `mark` and `split` keep and what they do.  The elements of a set stand in one segment of
`elems`, the marked ones first (`Ok`, `Marked`).  All the work of a splitter divides some sets and
leaves the others as they are (`Divides`); such steps follow one another by `Divides.trans`.

* `mark_marked`, `mark_divides`: `mark` adds one element to the marked ones of its set;
* `split_whole`, `split_parts`: `split` makes sets of the marked and of the unmarked elements, one
  of which keeps the number.
-/

namespace Rbsc.PartRef

open Arrays ForLoop

/-- A number from one to `n`. -/
def Num (n i : ℕ) : Prop := 1 ≤ i ∧ i ≤ n

namespace RefinablePartition

/-- A partition of the elements `1 … n`. -/
structure Ok (n : ℕ) (B : RefinablePartition) : Prop where
  /-- The segments can be sorted. -/
  size : n < 2 ^ 31
  elem : ∀ lc, Num n lc → Num n (B.elems lc)
  loc : ∀ st, Num n st → Num n (B.locs st)
  locs_elems : ∀ lc, Num n lc → B.locs (B.elems lc) = lc
  elems_locs : ∀ st, Num n st → B.elems (B.locs st) = st
  set : ∀ st, Num n st → Num B.nr_sets (B.sets st)
  /-- The elements of a set are those in its segment. -/
  mem_iff : ∀ st b, Num n st → Num B.nr_sets b →
    (B.sets st = b ↔ B.begins b ≤ B.locs st ∧ B.locs st < B.ends b)
  /-- No segment is empty. -/
  segment : ∀ b, Num B.nr_sets b → 1 ≤ B.begins b ∧ B.begins b < B.ends b ∧ B.ends b ≤ n + 1
  mid : ∀ b, Num B.nr_sets b → B.begins b ≤ B.mids b ∧ B.mids b ≤ B.ends b

/-- The element is marked. -/
def Marked (B : RefinablePartition) (st : ℕ) : Prop := B.locs st < B.mids (B.sets st)

/-- Nothing in the set is marked. -/
def Clean (B : RefinablePartition) (b : ℕ) : Prop := B.mids b = B.begins b

variable {n : ℕ} {B B' B'' : RefinablePartition} {b el u v : ℕ}

theorem Ok.place (h : Ok n B) (hb : Num B.nr_sets b) {lc : ℕ} (hlo : B.begins b ≤ lc)
    (hhi : lc < B.ends b) : Num n lc := by
  have := h.segment b hb
  exact ⟨by omega, by omega⟩

/-- The element at a place of a set. -/
theorem Ok.sets_elems (h : Ok n B) (hb : Num B.nr_sets b) {lc : ℕ} (hlo : B.begins b ≤ lc)
    (hhi : lc < B.ends b) : B.sets (B.elems lc) = b := by
  have hlc := h.place hb hlo hhi
  rw [h.mem_iff _ b (h.elem lc hlc) hb, h.locs_elems lc hlc]
  exact ⟨hlo, hhi⟩

/-- The place of an element is in the segment of its set. -/
theorem Ok.loc_mem (h : Ok n B) (hu : Num n u) :
    B.begins (B.sets u) ≤ B.locs u ∧ B.locs u < B.ends (B.sets u) :=
  (h.mem_iff u _ hu (h.set u hu)).1 rfl

theorem Ok.locs_inj (h : Ok n B) (hu : Num n u) (hv : Num n v) (huv : B.locs u = B.locs v) :
    u = v := by
  rw [← h.elems_locs u hu, huv, h.elems_locs v hv]

theorem Ok.exists_mem (h : Ok n B) (hb : Num B.nr_sets b) : ∃ u, Num n u ∧ B.sets u = b := by
  have := h.segment b hb
  exact ⟨_, h.elem _ (h.place hb le_rfl this.2.1), h.sets_elems hb le_rfl this.2.1⟩

/-- There are no more sets than elements. -/
theorem Ok.nr_sets_le (h : Ok n B) : B.nr_sets ≤ n := by
  have hcard : (Finset.Icc 1 B.nr_sets).card ≤ (Finset.Icc 1 n).card := by
    refine Finset.card_le_card_of_injOn (fun b => B.elems (B.begins b)) (fun b hb => ?_)
      fun b hb c hc hbc => ?_
    · have hb : Num B.nr_sets b := Finset.mem_Icc.1 hb
      exact Finset.mem_Icc.2 (h.elem _ (h.place hb le_rfl (h.segment b hb).2.1))
    · have hb : Num B.nr_sets b := Finset.mem_Icc.1 hb
      have hc : Num B.nr_sets c := Finset.mem_Icc.1 hc
      have hbc : B.elems (B.begins b) = B.elems (B.begins c) := hbc
      rw [← h.sets_elems hb le_rfl (h.segment b hb).2.1, hbc,
        h.sets_elems hc le_rfl (h.segment c hc).2.1]
  simpa using hcard

theorem Ok.marked_clean (h : Ok n B) (hu : Num n u) (hc : Clean B (B.sets u)) : ¬ Marked B u := by
  have := (h.loc_mem hu).1
  unfold Marked
  rw [hc]
  omega

/-! ## Dividing some sets -/

/-- `B'` comes from `B` by dividing the sets in `P`, each by the relation `R`, and leaving the
others as they are.  A part of a divided set keeps the number, and nothing is marked in the parts
but in the sets of `D`. -/
structure Divides (n : ℕ) (P D : Set ℕ) (B B' : RefinablePartition) (R : ℕ → ℕ → Prop) : Prop where
  ok : Ok n B'
  nr_le : B.nr_sets ≤ B'.nr_sets
  kept : ∀ u, Num n u → B.sets u ∉ P → B'.sets u = B.sets u ∧ B'.locs u = B.locs u
  frame : ∀ c, Num B.nr_sets c → c ∉ P →
    B'.begins c = B.begins c ∧ B'.ends c = B.ends c ∧ B'.mids c = B.mids c
  together : ∀ u v, Num n u → Num n v →
    (B'.sets u = B'.sets v ↔ B.sets u = B.sets v ∧ (B.sets u ∈ P → R u v))
  fresh : ∀ u, Num n u → B'.sets u = B.sets u ∨ B.nr_sets < B'.sets u
  clean : ∀ c, Num B'.nr_sets c → c ∈ P ∨ B.nr_sets < c → c ∉ D → Clean B' c

variable {P Q S D D' : Set ℕ} {R R' R₁ R₂ : ℕ → ℕ → Prop}

theorem Divides.refl (h : Ok n B) : Divides n ∅ ∅ B B R where
  ok := h
  nr_le := le_rfl
  kept _ _ _ := ⟨rfl, rfl⟩
  frame _ _ _ := ⟨rfl, rfl, rfl⟩
  together _ _ _ _ := by simp
  fresh _ _ := Or.inl rfl
  clean c hc hP _ := by
    rcases hP with hP | hP
    · exact absurd hP (Set.notMem_empty c)
    · exact absurd hc.2 (not_le.2 hP)

theorem Divides.congr (h : Divides n P D B B' R)
    (hR : ∀ u v, Num n u → Num n v → B.sets u = B.sets v → B.sets u ∈ P → (R u v ↔ R' u v)) :
    Divides n P D B B' R' :=
  { h with
    together := fun u v hu hv => by
      rw [h.together u v hu hv]
      exact and_congr_right fun huv => forall_congr' fun hP => hR u v hu hv huv hP }

/-- Sets that turn out to be without marks. -/
theorem Divides.cleaned (h : Divides n P D B B' R)
    (hD : ∀ c, Num B'.nr_sets c → c ∈ D → Clean B' c) : Divides n P ∅ B B' R :=
  { h with
    clean := fun c hc hP _ => by
      by_cases hcD : c ∈ D
      · exact hD c hc hcD
      · exact h.clean c hc hP hcD }

/-- An element that is in a set up to `nr_sets` after the step was in it before. -/
theorem Divides.sets_eq (h : Divides n P D B B' R) (hu : Num n u) (hle : B'.sets u ≤ B.nr_sets) :
    B.sets u = B'.sets u := by
  rcases h.fresh u hu with heq | hlt
  · exact heq.symm
  · omega

/-- The elements of a set that is not divided. -/
theorem Divides.sets_eq_iff (h : Divides n P D B B' R) (hu : Num n u) (hb : Num B.nr_sets b)
    (hbP : b ∉ P) : B'.sets u = b ↔ B.sets u = b := by
  constructor
  · intro hub
    rw [h.sets_eq hu (by rw [hub]; exact hb.2), hub]
  · rintro rfl
    exact (h.kept u hu hbP).1

/-- **Two steps.**  The second may divide parts that the first has made. -/
theorem Divides.trans (h₁ : Divides n P D B B' R₁) (h₂ : Divides n Q D' B' B'' R₂) (hok : Ok n B)
    (hS : ∀ c, Num B.nr_sets c → (c ∈ S ↔ c ∈ P ∨ c ∈ Q)) (hD : D ⊆ Q) :
    Divides n S D' B B'' fun u v => (B.sets u ∈ P → R₁ u v) ∧ (B'.sets u ∈ Q → R₂ u v) where
  ok := h₂.ok
  nr_le := h₁.nr_le.trans h₂.nr_le
  kept u hu huS := by
    rw [hS _ (hok.set u hu), not_or] at huS
    obtain ⟨hs, hl⟩ := h₁.kept u hu huS.1
    obtain ⟨hs', hl'⟩ := h₂.kept u hu (hs.symm ▸ huS.2)
    exact ⟨hs'.trans hs, hl'.trans hl⟩
  frame c hc hcS := by
    rw [hS c hc, not_or] at hcS
    obtain ⟨hb, he, hm⟩ := h₁.frame c hc hcS.1
    obtain ⟨hb', he', hm'⟩ := h₂.frame c ⟨hc.1, hc.2.trans h₁.nr_le⟩ hcS.2
    exact ⟨hb'.trans hb, he'.trans he, hm'.trans hm⟩
  together u v hu hv := by
    rw [h₂.together u v hu hv, h₁.together u v hu hv, and_assoc]
    refine and_congr_right fun huv => ⟨fun h _ => h, fun h => ?_⟩
    by_cases huS : B.sets u ∈ S
    · exact h huS
    · rw [hS _ (hok.set u hu), not_or] at huS
      refine ⟨fun hP => absurd hP huS.1, fun hQ => ?_⟩
      rw [(h₁.kept u hu huS.1).1] at hQ
      exact absurd hQ huS.2
  fresh u hu := by
    have hle := h₁.nr_le
    rcases h₂.fresh u hu with h | h
    · rw [h]
      exact h₁.fresh u hu
    · exact Or.inr (by omega)
  clean c hc hcS hcD := by
    by_cases hcQ : c ∈ Q ∨ B'.nr_sets < c
    · exact h₂.clean c hc hcQ hcD
    · rw [not_or, not_lt] at hcQ
      obtain ⟨hb, -, hm⟩ := h₂.frame c ⟨hc.1, hcQ.2⟩ hcQ.1
      have hclean : Clean B' c := by
        refine h₁.clean c ⟨hc.1, hcQ.2⟩ ?_ fun hcD => hcQ.1 (hD hcD)
        by_cases hlt : B.nr_sets < c
        · exact Or.inr hlt
        · have hcP := (hS c ⟨hc.1, not_lt.1 hlt⟩).1 (hcS.resolve_right hlt)
          exact Or.inl (hcP.resolve_right hcQ.1)
      unfold Clean
      rw [hm, hb, hclean]

/-- A set, and then one of its parts. -/
theorem Divides.part {q : ℕ} (h₁ : Divides n {b} D B B' R₁) (h₂ : Divides n {q} D' B' B'' R₂)
    (hok : Ok n B) (hq : q = b ∨ B.nr_sets < q) (hD : D ⊆ {q}) :
    Divides n {b} D' B B'' fun u v => R₁ u v ∧ (B'.sets u = q → R₂ u v) := by
  refine (h₁.trans (S := {b}) h₂ hok (fun c hc => ?_) hD).congr fun u v _ _ _ hub => ?_
  · rw [Set.mem_singleton_iff, Set.mem_singleton_iff]
    have := hc.2
    omega
  · exact and_congr_left fun _ => ⟨fun h => h hub, fun h _ => h⟩

/-! ## `mark` -/

section Mark

variable (B) in
@[simp] theorem mark_sets (el : ℕ) : (B.mark el).2.sets = B.sets := rfl

variable (B) in
@[simp] theorem mark_begins (el : ℕ) : (B.mark el).2.begins = B.begins := rfl

variable (B) in
@[simp] theorem mark_ends (el : ℕ) : (B.mark el).2.ends = B.ends := rfl

theorem mark_mids (B : RefinablePartition) (el c : ℕ) :
    (B.mark el).2.mids c = if c = B.sets el then B.mids (B.sets el) + 1 else B.mids c :=
  Arr.set_apply ..

/-- The places of two elements change. -/
theorem mark_elems (B : RefinablePartition) (el lc : ℕ) :
    (B.mark el).2.elems lc = if lc = B.mids (B.sets el) then el
      else if lc = B.locs el then B.elems (B.mids (B.sets el)) else B.elems lc := by
  unfold mark
  simp only [Arr.set_apply]

theorem mark_locs (B : RefinablePartition) (el st : ℕ) :
    (B.mark el).2.locs st = if st = el then B.mids (B.sets el)
      else if st = B.elems (B.mids (B.sets el)) then B.locs el else B.locs st := by
  unfold mark
  simp only [Arr.set_apply, if_true]

variable (h : Ok n B) (hel : Num n el) (hnot : ¬ Marked B el)

include h hel hnot

/-- The first place that is not marked. -/
theorem mark_mid : B.begins (B.sets el) ≤ B.mids (B.sets el) ∧
    B.mids (B.sets el) ≤ B.locs el ∧ B.locs el < B.ends (B.sets el) :=
  ⟨(h.mid _ (h.set el hel)).1, not_lt.1 hnot, (h.loc_mem hel).2⟩

theorem mark_ok : Ok n (B.mark el).2 := by
  obtain ⟨hm₁, hm₂, hm₃⟩ := mark_mid h hel hnot
  have hb := h.set el hel
  have hmid : Num n (B.mids (B.sets el)) := h.place hb hm₁ (by omega)
  have hx := h.elem _ hmid
  have hxl := h.locs_elems _ hmid
  have hxs : B.sets (B.elems (B.mids (B.sets el))) = B.sets el := h.sets_elems hb hm₁ (by omega)
  constructor
  · exact h.size
  · intro lc hlc
    rw [mark_elems]
    split_ifs
    · exact hel
    · exact hx
    · exact h.elem lc hlc
  · intro st hst
    rw [mark_locs]
    split_ifs
    · exact hmid
    · exact h.loc el hel
    · exact h.loc st hst
  · intro lc hlc
    rw [mark_elems]
    split_ifs with hlm hll
    · rw [mark_locs, if_pos rfl, hlm]
    · rw [mark_locs, if_pos rfl, hll]
      refine if_neg fun heq => ?_
      rw [heq] at hxl
      exact hlm (hll.trans hxl)
    · rw [mark_locs, if_neg, if_neg, h.locs_elems lc hlc]
      · intro heq
        rw [← h.locs_elems lc hlc, heq, hxl] at hlm
        exact hlm rfl
      · intro heq
        rw [← h.locs_elems lc hlc, heq] at hll
        exact hll rfl
  · intro st hst
    rw [mark_locs]
    split_ifs with hse hsx
    · rw [mark_elems, if_pos rfl, hse]
    · rw [mark_elems, if_pos rfl, ← hsx]
      refine if_neg fun heq => ?_
      rw [← heq, h.elems_locs el hel] at hsx
      exact hse hsx
    · rw [mark_elems, if_neg, if_neg, h.elems_locs st hst]
      · intro heq
        exact hse (h.locs_inj hst hel heq)
      · intro heq
        rw [← heq, h.elems_locs st hst] at hsx
        exact hsx rfl
  · exact h.set
  · intro st c hst hc
    rw [mark_locs]
    split_ifs with hse hsx
    · subst hse
      rw [mark_sets, mark_begins, mark_ends, ← hxs, h.mem_iff _ c hx hc, hxl, hxs]
    · rw [mark_sets, hsx, hxs, h.mem_iff el c hel hc]
      rfl
    · exact h.mem_iff st c hst hc
  · exact h.segment
  · intro c hc
    rw [mark_mids, mark_begins, mark_ends]
    have := h.mid c hc
    split_ifs with hcs
    · subst hcs
      omega
    · exact this

theorem mark_marked (hu : Num n u) : Marked (B.mark el).2 u ↔ Marked B u ∨ u = el := by
  obtain ⟨hm₁, hm₂, hm₃⟩ := mark_mid h hel hnot
  have hb := h.set el hel
  have hmid : Num n (B.mids (B.sets el)) := h.place hb hm₁ (by omega)
  unfold Marked at hnot ⊢
  rw [mark_locs, mark_mids, mark_sets]
  by_cases hue : u = el
  · subst hue
    simp
  · rw [if_neg hue]
    by_cases hux : u = B.elems (B.mids (B.sets el))
    · have hus : B.sets u = B.sets el := by rw [hux]; exact h.sets_elems hb hm₁ (by omega)
      have hul : B.locs u = B.mids (B.sets el) := by rw [hux]; exact h.locs_elems _ hmid
      have hne : B.locs el ≠ B.locs u := fun heq => hue (h.locs_inj hel hu heq).symm
      rw [if_pos hux, if_pos hus, hus, hul]
      simp only [hue, or_false]
      omega
    · rw [if_neg hux]
      simp only [hue, or_false]
      split_ifs with hus
      · have hne : B.locs u ≠ B.mids (B.sets el) := fun heq => by
          rw [← heq, h.elems_locs u hu] at hux
          exact hux rfl
        rw [hus]
        omega
      · rfl

theorem mark_divides :
    Divides n {B.sets el} {B.sets el} B (B.mark el).2 fun _ _ => True where
  ok := mark_ok h hel hnot
  nr_le := le_rfl
  kept u hu hus := by
    obtain ⟨hm₁, hm₂, hm₃⟩ := mark_mid h hel hnot
    refine ⟨rfl, ?_⟩
    rw [mark_locs, if_neg, if_neg]
    · rintro rfl
      exact hus (h.sets_elems (h.set el hel) hm₁ (by omega))
    · rintro rfl
      exact hus rfl
  frame c _ hcs := by
    refine ⟨rfl, rfl, ?_⟩
    exact (mark_mids B el c).trans (if_neg hcs)
  together u v _ _ := by simp
  fresh _ _ := Or.inl rfl
  clean c hc hP hD := by
    rcases hP with hP | hP
    · exact absurd hP hD
    · exact absurd hc.2 (not_le.2 hP)

end Mark

/-- Marks may be moved to any place of a set. -/
theorem set_mids_divides (h : Ok n B) {m : ℕ} (hlo : B.begins b ≤ m) (hhi : m ≤ B.ends b) :
    Divides n {b} {b} B { B with mids := B.mids.set b m } fun _ _ => True := by
  refine ⟨{ h with mid := fun c hc => ?_ }, le_rfl, fun _ _ _ => ⟨rfl, rfl⟩,
    fun c _ hcb => ⟨rfl, rfl, Arr.set_of_ne _ _ hcb⟩, fun u v _ _ => by simp,
    fun _ _ => Or.inl rfl, fun c hc hcb hcD => ?_⟩
  · dsimp only
    rw [Arr.set_apply]
    split_ifs with hcb
    · rw [hcb]
      exact ⟨hlo, hhi⟩
    · exact h.mid c hc
  · rcases hcb with hcb | hcb
    · exact absurd hcb hcD
    · exact absurd hc.2 (not_le.2 hcb)

/-! ## `split` -/

section Split

/-- A loop that gives the elements of a segment a number. -/
theorem foldl_sets (h : Ok n B) {lo hi : ℕ} (hlo : 1 ≤ lo) (hle : lo ≤ hi) (hhi : hi ≤ n + 1)
    (b : ℕ) (hu : Num n u) :
    (List.Ico lo hi).foldl (fun sets lc => sets.set (B.elems lc) b) B.sets u =
      if lo ≤ B.locs u ∧ B.locs u < hi then b else B.sets u := by
  refine foldl_Ico (P := fun i (a : Arr ℕ) => i ≤ n + 1 →
    a u = if lo ≤ B.locs u ∧ B.locs u < i then b else B.sets u) hle (fun _ => ?_)
    (fun i a hi hih ih hin => ?_) hhi
  · rw [if_neg (by omega)]
  · by_cases hui : u = B.elems i
    · have hl : B.locs u = i := by rw [hui]; exact h.locs_elems i ⟨by omega, by omega⟩
      rw [hui, Arr.set_self, ← hui, hl, if_pos ⟨hi, by omega⟩]
    · have hl : B.locs u ≠ i := fun heq => hui (by rw [← heq, h.elems_locs u hu])
      rw [Arr.set_of_ne _ _ hui, ih (by omega)]
      refine if_congr ?_ rfl rfl
      omega

/-- `B'` comes from `B` by making sets of the marked and of the other elements of `b`: the marked
ones get the number `q`, the others `r`. -/
structure SplitInto (n : ℕ) (B B' : RefinablePartition) (b r q : ℕ) : Prop where
  nr_sets : B'.nr_sets = B.nr_sets + 1
  numbers : r = b ∧ q = B.nr_sets + 1 ∨ r = B.nr_sets + 1 ∧ q = b
  elems : B'.elems = B.elems
  locs : B'.locs = B.locs
  begins : ∀ c, B'.begins c = if c = r then B.mids b else if c = q then B.begins b else B.begins c
  ends : ∀ c, B'.ends c = if c = r then B.ends b else if c = q then B.mids b else B.ends c
  mids : ∀ c, B'.mids c = if c = r then B.mids b else if c = q then B.begins b else B.mids c
  sets : ∀ u, Num n u → B'.sets u =
    if B.sets u = b then if B.locs u < B.mids b then q else r else B.sets u

theorem drop_full_of_ne (hhi : B.mids b ≠ B.ends b) : B.drop_full b = B := if_neg hhi

variable (h : Ok n B) (hb : Num B.nr_sets b)

include h hb

/-- **`split` with a part marked.** -/
theorem split_into (hlo : B.begins b < B.mids b) (hhi : B.mids b < B.ends b) :
    ∃ q, SplitInto n B (B.split b).2 b (B.split b).1 q := by
  have hsplit : B.split b = ((B.cut b).1, (B.cut b).2.open_set) := by
    unfold split
    dsimp only
    rw [drop_full_of_ne hhi.ne, if_neg hlo.ne']
  rw [hsplit]
  obtain ⟨hb₁, hb₂⟩ := hb
  have hseg := h.segment b ⟨hb₁, hb₂⟩
  have hmem : ∀ u, Num n u → (B.sets u = b ↔ B.begins b ≤ B.locs u ∧ B.locs u < B.ends b) :=
    fun u hu => h.mem_iff u b hu ⟨hb₁, hb₂⟩
  by_cases hhalf : B.mids b - B.begins b ≤ B.ends b - B.mids b
  · -- the marked part gets the new number
    have hcut : B.cut b = (b, { B with
        nr_sets := B.nr_sets + 1
        begins := (B.begins.set (B.nr_sets + 1) (B.begins b)).set b (B.mids b)
        ends := B.ends.set (B.nr_sets + 1) (B.mids b) }) := if_pos hhalf
    rw [hcut]
    have hbn : b ≠ B.nr_sets + 1 := by omega
    refine ⟨B.nr_sets + 1, rfl, Or.inl ⟨rfl, rfl⟩, rfl, rfl, fun c => ?_, fun c => ?_, fun c => ?_,
      fun u hu => ?_⟩
    · simp only [open_set, Arr.set_apply]
    · simp only [open_set, Arr.set_apply]
      by_cases hcb : c = b
      · rw [if_pos hcb, if_neg (by omega), hcb]
      · rw [if_neg hcb]
    · simp only [open_set, Arr.set_apply, if_true, if_neg hbn.symm]
      by_cases hcb : c = b
      · rw [if_pos hcb, if_neg (by omega), hcb]
      · rw [if_neg hcb]
    · have hloop := foldl_sets h hseg.1 hlo.le (by omega)
        (B.nr_sets + 1) hu
      simp only [open_set, places, Arr.set_apply, if_true, if_neg hbn.symm]
      rw [hloop]
      have hmemu := hmem u hu
      split_ifs <;> first | rfl | omega
  · have hcut : B.cut b = (B.nr_sets + 1, { B with
        nr_sets := B.nr_sets + 1
        begins := B.begins.set (B.nr_sets + 1) (B.mids b)
        ends := (B.ends.set (B.nr_sets + 1) (B.ends b)).set b (B.mids b)
        mids := B.mids.set b (B.begins b) }) := if_neg hhalf
    rw [hcut]
    have hbn : b ≠ B.nr_sets + 1 := by omega
    refine ⟨b, rfl, Or.inr ⟨rfl, rfl⟩, rfl, rfl, fun c => ?_, fun c => ?_, fun c => ?_,
      fun u hu => ?_⟩
    · simp only [open_set, Arr.set_apply]
      by_cases hcb : c = b
      · rw [if_neg (by omega), if_neg (by omega), if_pos hcb, hcb]
      · rw [if_neg hcb]
    · simp only [open_set, Arr.set_apply]
      by_cases hcb : c = b
      · rw [if_pos hcb, if_neg (by omega), if_pos hcb]
      · rw [if_neg hcb, if_neg hcb]
    · simp only [open_set, Arr.set_apply, if_true]
    · have hloop := foldl_sets h (hseg.1.trans hlo.le) hhi.le hseg.2.2
        (B.nr_sets + 1) hu
      simp only [open_set, places, Arr.set_apply, if_true, if_neg hbn.symm]
      rw [hloop]
      have hmemu := hmem u hu
      split_ifs <;> first | rfl | omega

omit hb in
/-- `split` with all or nothing marked: the sets stay and the marks go. -/
theorem split_whole (hb : Num B.nr_sets b) (hw : B.mids b = B.begins b ∨ B.mids b = B.ends b) :
    (B.split b).1 = 0 ∧ (B.split b).2.sets = B.sets ∧
      Divides n {b} ∅ B (B.split b).2 fun _ _ => True := by
  have hlt := (h.segment b hb).2.1
  have hsplit : B.split b = (0, { B with mids := B.mids.set b (B.begins b) }) := by
    unfold split drop_full
    rcases hw with hw | hw
    · have hne : B.mids b ≠ B.ends b := by omega
      rw [if_neg hne]
      dsimp only
      rw [if_pos hw, ← hw, Arr.set_get]
    · rw [if_pos hw]
      dsimp only
      rw [if_pos (Arr.set_self ..)]
  rw [hsplit]
  refine ⟨rfl, rfl, (set_mids_divides h le_rfl hlt.le).cleaned fun c _ hcb => ?_⟩
  rw [Set.mem_singleton_iff.1 hcb]
  exact Arr.set_self ..

end Split

section SplitInto

variable {r q : ℕ} (h : Ok n B) (hb : Num B.nr_sets b) (hs : SplitInto n B B' b r q)

include hs

theorem SplitInto.num (hb : Num B.nr_sets b) : Num B'.nr_sets r ∧ Num B'.nr_sets q ∧ r ≠ q := by
  have hnr := hs.nr_sets
  unfold Num at *
  rcases hs.numbers with ⟨h₁, h₂⟩ | ⟨h₁, h₂⟩ <;> omega

/-- The marked part of `b` after `split`, as `markov_split` finds it. -/
theorem SplitInto.marked_part (hb : Num B.nr_sets b) :
    (if b = r then B'.nr_sets else b) = q := by
  have hnr := hs.nr_sets
  have hle := hb.2
  rcases hs.numbers with ⟨h₁, h₂⟩ | ⟨h₁, h₂⟩
  · rw [if_pos h₁.symm, hnr, h₂]
  · rw [if_neg (by omega), h₂]

include h

theorem SplitInto.sets_eq_marked (hb : Num B.nr_sets b) (hu : Num n u) :
    B'.sets u = q ↔ B.sets u = b ∧ Marked B u := by
  have hset := h.set u hu
  have hrq := (hs.num hb).2.2
  unfold Num at hset hb
  rw [hs.sets u hu]
  unfold Marked
  by_cases hub : B.sets u = b
  · rw [if_pos hub, hub]
    split_ifs with hm
    · simp [hm]
    · simp [hm, hrq]
  · rw [if_neg hub]
    simp only [hub, false_and, iff_false]
    rcases hs.numbers with ⟨h₁, h₂⟩ | ⟨h₁, h₂⟩ <;> omega

theorem SplitInto.sets_eq_unmarked (hb : Num B.nr_sets b) (hu : Num n u) :
    B'.sets u = r ↔ B.sets u = b ∧ ¬ Marked B u := by
  have hset := h.set u hu
  have hrq := (hs.num hb).2.2
  unfold Num at hset hb
  rw [hs.sets u hu]
  unfold Marked
  by_cases hub : B.sets u = b
  · rw [if_pos hub, hub]
    split_ifs with hm
    · simp [hm, hrq.symm]
    · simp [hm]
  · rw [if_neg hub]
    simp only [hub, false_and, iff_false]
    rcases hs.numbers with ⟨h₁, h₂⟩ | ⟨h₁, h₂⟩ <;> omega

include hb

theorem SplitInto.ok (hlo : B.begins b < B.mids b) (hhi : B.mids b < B.ends b) : Ok n B' := by
  obtain ⟨hr, hq, hrq⟩ := hs.num hb
  have hnr := hs.nr_sets
  have hseg := h.segment b hb
  have hnum := hs.numbers
  -- a set other than the two parts
  have hother : ∀ c, Num B'.nr_sets c → c ≠ r → c ≠ q → Num B.nr_sets c ∧ c ≠ b := by
    intro c hc hcr hcq
    have hb' := hb
    unfold Num at hc hb' ⊢
    rcases hnum with ⟨h₁, h₂⟩ | ⟨h₁, h₂⟩ <;> omega
  constructor
  · exact h.size
  · rw [hs.elems]
    exact h.elem
  · rw [hs.locs]
    exact h.loc
  · rw [hs.elems, hs.locs]
    exact h.locs_elems
  · rw [hs.elems, hs.locs]
    exact h.elems_locs
  · intro u hu
    have := h.set u hu
    rw [hs.sets u hu]
    split_ifs
    · exact hq
    · exact hr
    · rw [hnr]
      exact ⟨this.1, by have := this.2; omega⟩
  · intro u c hu hc
    have hmem := h.mem_iff u b hu hb
    rw [hs.begins, hs.ends, hs.locs]
    by_cases hcr : c = r
    · subst hcr
      rw [if_pos rfl, if_pos rfl, hs.sets_eq_unmarked h hb hu]
      unfold Marked
      constructor
      · rintro ⟨hub, hm⟩
        rw [hub] at hm
        exact ⟨not_lt.1 hm, (hmem.1 hub).2⟩
      · rintro ⟨hge, hlt⟩
        have hub := hmem.2 ⟨by omega, hlt⟩
        rw [hub]
        exact ⟨rfl, not_lt.2 hge⟩
    · rw [if_neg hcr, if_neg hcr]
      by_cases hcq : c = q
      · subst hcq
        rw [if_pos rfl, if_pos rfl, hs.sets_eq_marked h hb hu]
        unfold Marked
        constructor
        · rintro ⟨hub, hm⟩
          rw [hub] at hm
          exact ⟨(hmem.1 hub).1, hm⟩
        · rintro ⟨hge, hlt⟩
          have hub := hmem.2 ⟨hge, by omega⟩
          rw [hub]
          exact ⟨rfl, hlt⟩
      · rw [if_neg hcq, if_neg hcq]
        obtain ⟨hc', hcb⟩ := hother c hc hcr hcq
        rw [← h.mem_iff u c hu hc', hs.sets u hu]
        split_ifs with hub hm
        · simp [hub, Ne.symm hcq, Ne.symm hcb]
        · simp [hub, Ne.symm hcr, Ne.symm hcb]
        · rfl
  · intro c hc
    rw [hs.begins, hs.ends]
    split_ifs with hcr hcq
    · omega
    · omega
    · exact h.segment c (hother c hc hcr hcq).1
  · intro c hc
    rw [hs.begins, hs.ends, hs.mids]
    split_ifs with hcr hcq
    · omega
    · omega
    · exact h.mid c (hother c hc hcr hcq).1

theorem SplitInto.divides (hlo : B.begins b < B.mids b) (hhi : B.mids b < B.ends b) :
    Divides n {b} ∅ B B' fun u v => Marked B u ↔ Marked B v := by
  obtain ⟨hr, hq, hrq⟩ := hs.num hb
  have hnum := hs.numbers
  refine ⟨hs.ok h hb hlo hhi, by rw [hs.nr_sets]; omega, fun u hu hub => ?_, fun c hc hcb => ?_,
    fun u v hu hv => ?_, fun u hu => ?_, fun c hc hcb _ => ?_⟩
  · have hub : B.sets u ≠ b := hub
    exact ⟨by rw [hs.sets u hu, if_neg hub], by rw [hs.locs]⟩
  · have hcb : c ≠ b := hcb
    have hne : c ≠ r ∧ c ≠ q := by
      unfold Num at hc
      rcases hnum with ⟨h₁, h₂⟩ | ⟨h₁, h₂⟩ <;> omega
    rw [hs.begins, hs.ends, hs.mids]
    simp only [if_neg hne.1, if_neg hne.2, and_self]
  · have hsu := h.set u hu
    have hsv := h.set v hv
    have hb' := hb
    unfold Num at hsu hsv hb'
    rw [hs.sets u hu, hs.sets v hv, Set.mem_singleton_iff]
    unfold Marked
    by_cases hub : B.sets u = b
    · rw [if_pos hub, hub]
      by_cases hvb : B.sets v = b
      · rw [if_pos hvb, hvb]
        split_ifs with hmu hmv hmv
        · simp [hmu, hmv]
        · simp [hmu, hmv, hrq.symm]
        · simp [hmu, hmv, hrq]
        · simp [hmu, hmv]
      · rw [if_neg hvb]
        split_ifs <;> omega
    · rw [if_neg hub]
      by_cases hvb : B.sets v = b
      · rw [if_pos hvb, hvb]
        split_ifs <;> omega
      · rw [if_neg hvb]
        simp [hub]
  · rw [hs.sets u hu]
    split_ifs with hub hm
    · rw [hub]
      rcases hnum with ⟨h₁, h₂⟩ | ⟨h₁, h₂⟩ <;> omega
    · rw [hub]
      rcases hnum with ⟨h₁, h₂⟩ | ⟨h₁, h₂⟩ <;> omega
    · exact Or.inl rfl
  · have hcrq : c = r ∨ c = q := by
      rw [Set.mem_singleton_iff] at hcb
      have hnr := hs.nr_sets
      unfold Num at hc
      rcases hnum with ⟨h₁, h₂⟩ | ⟨h₁, h₂⟩ <;> omega
    unfold Clean
    rw [hs.begins, hs.mids]
    rcases hcrq with rfl | rfl
    · rw [if_pos rfl, if_pos rfl]
    · rw [if_neg hrq.symm, if_neg hrq.symm, if_pos rfl, if_pos rfl]

end SplitInto

end RefinablePartition

end Rbsc.PartRef
