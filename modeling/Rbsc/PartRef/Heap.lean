import Rbsc.PartRef.Model

/-!
# The heap sort of `part_ref`

The segment `[beg, e)` of an array is a binary heap with its root at `beg`.  `fix_heap` moves a free
place down from a parent until the element that it keeps aside fits (`Hole`); `heapsort` builds the
heap from its leaves and then takes the largest element to the end, over and over
(`heapsort_sorted`).  Both move elements within the segment only (`Rearranges`).
-/

namespace Rbsc.PartRef

open Arrays ForLoop

variable {κ : Type*} [LinearOrder κ] {key : ℕ → κ} {beg e lo hole tmp : ℕ} {a a' a'' : Arr ℕ}

/-! ## Rearrangements of a segment -/

/-- A permutation that moves nothing outside of a set keeps the set. -/
theorem perm_mem_iff {P : ℕ → Prop} {σ : Equiv.Perm ℕ} (hσ : ∀ i, ¬ P i → σ i = i) (i : ℕ) :
    P (σ i) ↔ P i := by
  constructor
  · intro hi
    by_contra hout
    rw [hσ i hout] at hi
    exact hout hi
  · intro hi
    by_contra hout
    rw [σ.injective (hσ (σ i) hout)] at hout
    exact hout hi

/-- `a'` has the entries of `a`, those of `[beg, e)` in some other order. -/
def Rearranges (beg e : ℕ) (a a' : Arr ℕ) : Prop :=
  ∃ σ : Equiv.Perm ℕ, (∀ i, ¬ (beg ≤ i ∧ i < e) → σ i = i) ∧ ∀ i, a' i = a (σ i)

theorem Rearranges.refl (a : Arr ℕ) : Rearranges beg e a a := ⟨1, fun _ _ => rfl, fun _ => rfl⟩

theorem Rearranges.trans (h : Rearranges beg e a a') (h' : Rearranges beg e a' a'') :
    Rearranges beg e a a'' := by
  obtain ⟨σ, hσ, ha⟩ := h
  obtain ⟨τ, hτ, ha'⟩ := h'
  refine ⟨σ * τ, fun i hi => ?_, fun i => ?_⟩
  · rw [Equiv.Perm.mul_apply, hτ i hi, hσ i hi]
  · rw [ha', ha, Equiv.Perm.mul_apply]

theorem Rearranges.mono (h : Rearranges beg lo a a') (hle : lo ≤ e) : Rearranges beg e a a' := by
  obtain ⟨σ, hσ, ha⟩ := h
  exact ⟨σ, fun i hi => hσ i (by omega), ha⟩

theorem Rearranges.outside (h : Rearranges beg e a a') {i : ℕ} (hi : ¬ (beg ≤ i ∧ i < e)) :
    a' i = a i := by
  obtain ⟨σ, hσ, ha⟩ := h
  rw [ha, hσ i hi]

/-- A property of the entries of the segment is kept. -/
theorem Rearranges.forall {P : ℕ → Prop} (h : Rearranges beg e a a')
    (hP : ∀ i, beg ≤ i → i < e → P (a i)) : ∀ i, beg ≤ i → i < e → P (a' i) := by
  obtain ⟨σ, hσ, ha⟩ := h
  intro i hi hie
  have hin := (perm_mem_iff hσ i).2 ⟨hi, hie⟩
  rw [ha]
  exact hP _ hin.1 hin.2

/-- Two entries change places. -/
theorem Rearranges.swap {x y : ℕ} (hx : beg ≤ x ∧ x < e) (hy : beg ≤ y ∧ y < e) :
    Rearranges beg e a ((a.set x (a y)).set y (a x)) := by
  refine ⟨Equiv.swap x y, fun i hi => ?_, fun i => ?_⟩
  · apply Equiv.swap_apply_of_ne_of_ne
    · rintro rfl
      exact hi hx
    · rintro rfl
      exact hi hy
  · by_cases hiy : i = y
    · rw [hiy, Arr.set_self, Equiv.swap_apply_right]
    · rw [Arr.set_of_ne _ _ hiy]
      by_cases hix : i = x
      · rw [hix, Arr.set_self, Equiv.swap_apply_left]
      · rw [Arr.set_of_ne _ _ hix, Equiv.swap_apply_of_ne_of_ne hix hiy]

/-! ## The free place moves down -/

/-- `c` is a child of `p` in a heap with its root at `beg`. -/
def IsChild (beg p c : ℕ) : Prop := c + beg = 2 * p + 1 ∨ c + beg = 2 * p + 2

theorem IsChild.lt {p c : ℕ} (h : IsChild beg p c) (hp : beg ≤ p) : p < c := by
  unfold IsChild at h
  omega

theorem IsChild.parent_eq {p q c : ℕ} (h : IsChild beg p c) (h' : IsChild beg q c) : p = q := by
  unfold IsChild at h h'
  omega

/-- No child in the segment has a larger key than its parent, from parent `lo` on. -/
def HeapFrom (beg e : ℕ) (key : ℕ → κ) (a : Arr ℕ) (lo : ℕ) : Prop :=
  ∀ p c, lo ≤ p → IsChild beg p c → c < e → key (a c) ≤ key (a p)

/-- A heap from `lo` on but for a free place `hole`, where `tmp` is not too large. -/
structure Hole (beg e : ℕ) (key : ℕ → κ) (lo tmp : ℕ) (a : Arr ℕ) (hole : ℕ) : Prop where
  /-- The parents and children other than the free place are in order. -/
  except : ∀ p c, lo ≤ p → IsChild beg p c → c < e → p ≠ hole → c ≠ hole → key (a c) ≤ key (a p)
  /-- The element fits below the parent of the free place. -/
  above : ∀ p, lo ≤ p → IsChild beg p hole → key tmp ≤ key (a p)
  /-- So do the children of the free place. -/
  grand : ∀ p c, lo ≤ p → IsChild beg p hole → IsChild beg hole c → c < e → key (a c) ≤ key (a p)

theorem Hole.finish (h : Hole beg e key lo tmp a hole) (hbeg : beg ≤ hole)
    (hstop : ∀ c, IsChild beg hole c → c < e → key (a c) ≤ key tmp) :
    HeapFrom beg e key (a.set hole tmp) lo := by
  intro p c hp hc hce
  by_cases hph : p = hole
  · subst hph
    have hne : c ≠ p := (hc.lt hbeg).ne'
    rw [Arr.set_self, Arr.set_of_ne _ _ hne]
    exact hstop c hc hce
  · rw [Arr.set_of_ne _ _ hph]
    by_cases hch : c = hole
    · subst hch
      rw [Arr.set_self]
      exact h.above p hp hc
    · rw [Arr.set_of_ne _ _ hch]
      exact h.except p c hp hc hce hph hch

theorem Hole.move (h : Hole beg e key lo tmp a hole) (hbeg : beg ≤ hole) (hlo : lo ≤ hole) {c : ℕ}
    (hc : IsChild beg hole c) (hce : c < e)
    (hmax : ∀ d, IsChild beg hole d → d < e → key (a d) ≤ key (a c)) (hlt : key tmp < key (a c)) :
    Hole beg e key lo tmp (a.set hole (a c)) c := by
  have hcgt : hole < c := hc.lt hbeg
  constructor
  · intro p d hp hd hde hpc hdc
    by_cases hph : p = hole
    · subst hph
      rw [Arr.set_self, Arr.set_of_ne _ _ (hd.lt hbeg).ne']
      exact hmax d hd hde
    · rw [Arr.set_of_ne _ _ hph]
      by_cases hdh : d = hole
      · subst hdh
        rw [Arr.set_self]
        exact h.grand p c hp hd hc hce
      · rw [Arr.set_of_ne _ _ hdh]
        exact h.except p d hp hd hde hph hdh
  · intro p _ hpc
    rw [hpc.parent_eq hc, Arr.set_self]
    exact hlt.le
  · intro p d _ hpc hd hde
    have hdgt : c < d := hd.lt (by omega)
    rw [hpc.parent_eq hc, Arr.set_self, Arr.set_of_ne _ _ (by omega)]
    exact h.except c d (by omega) hd hde (by omega) (by omega)

/-- The child that `fix_heap` compares with is a child with the largest key. -/
theorem child_spec (a : Arr ℕ) (hbeg : beg ≤ hole) {child : ℕ} (hchild : child = 2 * hole - beg + 1)
    (hce : child < e) {c : ℕ}
    (hc : c = if child + 1 < e ∧ key (a child) < key (a (child + 1)) then child + 1 else child) :
    IsChild beg hole c ∧ c < e ∧ ∀ d, IsChild beg hole d → d < e → key (a d) ≤ key (a c) := by
  have hfirst : ∀ d, IsChild beg hole d → d = child ∨ d = child + 1 := by
    intro d hd
    unfold IsChild at hd
    omega
  by_cases hsnd : child + 1 < e ∧ key (a child) < key (a (child + 1))
  · rw [if_pos hsnd] at hc
    subst hc
    refine ⟨Or.inr (by omega), hsnd.1, fun d hd _ => ?_⟩
    rcases hfirst d hd with rfl | rfl
    · exact hsnd.2.le
    · exact le_rfl
  · rw [if_neg hsnd] at hc
    subst hc
    refine ⟨Or.inl (by omega), hce, fun d hd hde => ?_⟩
    rcases hfirst d hd with rfl | rfl
    · exact le_rfl
    · exact not_lt.1 fun hlt => hsnd ⟨hde, hlt⟩

/-- **The loop of `fix_heap`.** -/
theorem fix_heap_loop_spec (hbeg : beg ≤ lo) (hsize : e ≤ 2 ^ 31) :
    ∀ (fuel : ℕ) (a : Arr ℕ) (hole : ℕ), lo ≤ hole → hole < e → e - hole ≤ fuel →
      Hole beg e key lo tmp a hole →
      HeapFrom beg e key (fix_heap_loop beg e tmp key fuel a hole) lo ∧
        Rearranges beg e (a.set hole tmp) (fix_heap_loop beg e tmp key fuel a hole)
  | 0, _, _, _, hlt, hfuel, _ => by omega
  | fuel + 1, a, hole, hlo, hlt, hfuel, h => by
    have hbegh : beg ≤ hole := hbeg.trans hlo
    unfold fix_heap_loop
    rw [nodeT_of_lt (show 2 * hole - beg + 1 < 2 ^ 32 by omega)]
    by_cases hce : 2 * hole - beg + 1 < e
    · rw [if_pos hce]
      dsimp only
      generalize hchild : (if 2 * hole - beg + 1 + 1 < e ∧
        key (a (2 * hole - beg + 1)) < key (a (2 * hole - beg + 1 + 1)) then 2 * hole - beg + 1 + 1
        else 2 * hole - beg + 1) = c
      obtain ⟨hc, hclt, hmax⟩ := child_spec a hbegh rfl hce hchild.symm
      have hgt : hole < c := hc.lt hbegh
      by_cases hlt' : key tmp < key (a c)
      · rw [if_pos hlt']
        have hnext := h.move hbegh hlo hc hclt hmax hlt'
        obtain ⟨hheap, hre⟩ :=
          fix_heap_loop_spec hbeg hsize fuel _ c (by omega) hclt (by omega) hnext
        refine ⟨hheap, Rearranges.trans ?_ hre⟩
        -- the element and the child change places
        have hswap : Rearranges beg e (a.set hole tmp)
            (((a.set hole tmp).set hole (a.set hole tmp c)).set c (a.set hole tmp hole)) :=
          .swap ⟨hbegh, hlt⟩ ⟨hbegh.trans hgt.le, hclt⟩
        rwa [Arr.set_self, Arr.set_of_ne _ _ hgt.ne', Arr.set_set] at hswap
      · rw [if_neg hlt']
        exact ⟨h.finish hbegh fun d hd hde => (hmax d hd hde).trans (not_lt.1 hlt'), .refl _⟩
    · rw [if_neg hce]
      refine ⟨h.finish hbegh fun c hc hce' => ?_, .refl _⟩
      unfold IsChild at hc
      omega

/-- More fuel than `e - parent` does not change the loop: the code's has none. -/
theorem fix_heap_loop_fuel (hbeg : beg ≤ hole) (hlt : hole < e) (hsize : e ≤ 2 ^ 31) {fuel : ℕ}
    (hfuel : e - hole ≤ fuel) :
    fix_heap_loop beg e tmp key (fuel + 1) a hole = fix_heap_loop beg e tmp key fuel a hole := by
  induction fuel generalizing a hole with
  | zero => omega
  | succ fuel ih =>
    rw [fix_heap_loop]
    conv_rhs => rw [fix_heap_loop]
    rw [nodeT_of_lt (show 2 * hole - beg + 1 < 2 ^ 32 by omega)]
    by_cases hce : 2 * hole - beg + 1 < e
    · rw [if_pos hce, if_pos hce]
      dsimp only
      obtain ⟨hc, hce', -⟩ := @child_spec _ _ key _ _ _ a hbeg _ rfl hce _ rfl
      have hgt := hc.lt hbeg
      exact if_congr Iff.rfl (ih (by omega) hce' (by omega)) rfl
    · rw [if_neg hce, if_neg hce]

/-- `fix_heap` makes a heap from `parent` on of a heap from the next place on. -/
theorem fix_heap_spec {parent : ℕ} (hbeg : beg ≤ parent) (hlt : parent < e) (hsize : e ≤ 2 ^ 31)
    (h : HeapFrom beg e key a (parent + 1)) :
    HeapFrom beg e key (fix_heap a beg parent e key) parent ∧
      Rearranges beg e a (fix_heap a beg parent e key) := by
  have hhole : Hole beg e key parent (a parent) a parent := by
    constructor
    · intro p c hp hc hce hne _
      exact h p c (by omega) hc hce
    · intro p hp hc
      have := hc.lt (hbeg.trans hp)
      omega
    · intro p c hp hc _ _
      have := hc.lt (hbeg.trans hp)
      omega
  have := fix_heap_loop_spec hbeg hsize (e - parent) a parent le_rfl hlt le_rfl hhole
  rwa [Arr.set_get] at this

/-! ## Sorting -/

theorem HeapFrom.mono {e' : ℕ} (h : HeapFrom beg e key a lo) (he : e' ≤ e) :
    HeapFrom beg e' key a lo := fun p c hp hc hce => h p c hp hc (hce.trans_le he)

theorem HeapFrom.congr (h : HeapFrom beg e key a lo) (haa : ∀ i, lo ≤ i → i < e → a' i = a i)
    (hbeg : beg ≤ lo) : HeapFrom beg e key a' lo := by
  intro p c hp hc hce
  have hpc := hc.lt (hbeg.trans hp)
  rw [haa p hp (by omega), haa c (by omega) hce]
  exact h p c hp hc hce

/-- The root of a heap has the largest key. -/
theorem HeapFrom.le_root (h : HeapFrom beg e key a beg) {i : ℕ} (hi : beg ≤ i) (hie : i < e) :
    key (a i) ≤ key (a beg) := by
  induction i using Nat.strong_induction_on with
  | _ i ih =>
    by_cases hib : i = beg
    · rw [hib]
    · have hc : IsChild beg ((i + beg - 1) / 2) i := by
        unfold IsChild
        omega
      have hpar : key (a i) ≤ key (a ((i + beg - 1) / 2)) := h _ i (by omega) hc hie
      exact hpar.trans (ih _ (by omega) (by omega) (by omega))

/-- The entries from place `j` on are in order and no smaller than those before. -/
def SortedFrom (beg e : ℕ) (key : ℕ → κ) (a : Arr ℕ) (j : ℕ) : Prop :=
  ∀ i k, beg ≤ i → i < k → j ≤ k → k < e → key (a i) ≤ key (a k)

/-- The first loop of `heapsort`. -/
theorem heap_built (hbe : beg ≤ e) (hsize : e ≤ 2 ^ 31) (key : ℕ → κ) (a : Arr ℕ) :
    HeapFrom beg e key
        ((List.Ico beg (nodeT (e + beg) / 2)).foldr (fun i1 a => fix_heap a beg i1 e key) a) beg ∧
      Rearranges beg e a
        ((List.Ico beg (nodeT (e + beg) / 2)).foldr (fun i1 a => fix_heap a beg i1 e key) a) := by
  by_cases hmid : e + beg < 2 ^ 32
  · rw [nodeT_of_lt hmid]
    refine foldr_Ico (P := fun lo a' => HeapFrom beg e key a' lo ∧ Rearranges beg e a a')
      (by omega) ⟨fun p c hp hc hce => ?_, .refl a⟩ ?_
    · unfold IsChild at hc
      omega
    · rintro i a' hi hie ⟨hheap, hre⟩
      obtain ⟨hheap', hre'⟩ := fix_heap_spec hi (by omega) hsize hheap
      exact ⟨hheap', hre.trans hre'⟩
  · -- both ends are `2 ^ 31`, so the segment is empty
    have hnil : List.Ico beg (nodeT (e + beg) / 2) = [] := by
      refine List.Ico.eq_nil_of_le ?_
      unfold nodeT
      omega
    rw [hnil]
    refine ⟨fun p c hp hc hce => ?_, .refl a⟩
    have := hc.lt hp
    omega

/-- One step of the second loop: the largest element of the heap goes behind it. -/
theorem heapsort_step_spec {j : ℕ} (hj : beg < j) (hje : j < e) (hsize : e ≤ 2 ^ 31)
    (hheap : HeapFrom beg (j + 1) key a beg) (hsort : SortedFrom beg e key a (j + 1)) :
    HeapFrom beg j key (heapsort_step beg key j a) beg ∧
      SortedFrom beg e key (heapsort_step beg key j a) j ∧
        Rearranges beg e a (heapsort_step beg key j a) := by
  unfold heapsort_step
  dsimp only
  have hswap : Rearranges beg (j + 1) a ((a.set beg (a j)).set j (a beg)) :=
    .swap ⟨le_rfl, by omega⟩ ⟨hj.le, by omega⟩
  generalize hb : (a.set beg (a j)).set j (a beg) = b at hswap ⊢
  have hbj : b j = a beg := by rw [← hb, Arr.set_self]
  have hother : ∀ i, beg + 1 ≤ i → i < j → b i = a i := fun i hi hij => by
    rw [← hb, Arr.set_of_ne _ _ (by omega), Arr.set_of_ne _ _ (by omega)]
  -- below the root the heap is as it was
  have hbelow : HeapFrom beg j key b (beg + 1) := by
    refine HeapFrom.congr (a := a) ?_ hother (by omega)
    exact fun p c hp hc hcj => hheap p c (by omega) hc (by omega)
  obtain ⟨hheap', hre⟩ := fix_heap_spec le_rfl hj (by omega) hbelow
  refine ⟨hheap', ?_, (hswap.mono hje).trans (hre.mono hje.le)⟩
  have hall : Rearranges beg (j + 1) a (fix_heap b beg beg j key) :=
    hswap.trans (hre.mono (by omega))
  intro i k hi hik hjk hke
  by_cases hkj : k = j
  · subst hkj
    rw [hre.outside (i := k) (by omega), hbj]
    exact hall.forall (P := fun x => key x ≤ key (a beg))
      (fun i hi hij => hheap.le_root hi hij) i hi (by omega)
  · have hk : (fix_heap b beg beg j key) k = a k := hall.outside (by omega)
    rw [hk]
    by_cases hij : i ≤ j
    · exact hall.forall (P := fun x => key x ≤ key (a k))
        (fun i hi hij => hsort i k hi (by omega) (by omega) hke) i hi (by omega)
    · rw [hall.outside (by omega)]
      exact hsort i k hi hik (by omega) hke

/-- **`heapsort` sorts**: the keys increase over the segment, and only its entries change places. -/
theorem heapsort_sorted (hbe : beg ≤ e) (hsize : e ≤ 2 ^ 31) (key : ℕ → κ) (a : Arr ℕ) :
    (∀ i k, beg ≤ i → i < k → k < e →
        key (heapsort a beg e key i) ≤ key (heapsort a beg e key k)) ∧
      Rearranges beg e a (heapsort a beg e key) := by
  unfold heapsort
  by_cases he : e = 0
  · rw [if_pos he]
    exact ⟨fun i k _ _ hk => by omega, .refl a⟩
  · rw [if_neg he]
    dsimp only
    obtain ⟨hheap, hre⟩ := heap_built hbe hsize key a
    generalize (List.Ico beg (nodeT (e + beg) / 2)).foldr (fun i1 a => fix_heap a beg i1 e key) a = b
      at hheap hre
    by_cases hlt : beg + 1 ≤ e
    · have := foldr_Ico (P := fun j a' => HeapFrom beg j key a' beg ∧
          SortedFrom beg e key a' j ∧ Rearranges beg e a a') (s := b) (f := heapsort_step beg key)
        hlt ⟨hheap, fun i k _ _ _ _ => by omega, hre⟩ ?_
      · obtain ⟨-, hsort, hre'⟩ := this
        exact ⟨fun i k hi hik hke => hsort i k hi hik (by omega) hke, hre'⟩
      · rintro j a' hj hje ⟨hheap', hsort, hre'⟩
        obtain ⟨h₁, h₂, h₃⟩ := heapsort_step_spec (by omega) hje hsize hheap' hsort
        exact ⟨h₁, h₂, hre'.trans h₃⟩
    · rw [List.Ico.eq_nil_of_le (by omega)]
      exact ⟨fun i k _ _ _ => by omega, hre⟩

end Rbsc.PartRef
