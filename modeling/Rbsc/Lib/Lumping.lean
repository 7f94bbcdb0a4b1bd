import Mathlib

/-!
# Stable partitions of a weighted graph

A weight `W u v` stands on every ordered pair of a finite set of nodes.  A partition is *stable*
when two nodes of one class have the same total weight into every class; the stable partitions
below a given one have a coarsest member, `coarsest W b`.

* `SameWeights W r u v`: `u` and `v` have the same total weight into every class of `r`;
* `Stable W r`: nodes of one class of `r` have the same weights;
* `coarsest W b`: the coarsest stable partition below `b` (`coarsest_stable`, `coarsest_le`,
  `le_coarsest`);
* `refineStep W r`: the partition by the weights into the classes of `r`;
* `coarsest_eq_comap`: the coarsest stable partition of a quotient is that of the graph;
* `coarsest_congr`: it commutes with a renaming of the nodes.
-/

namespace Lumping

variable {V : Type*} [Fintype V] {M : Type*} [AddCommMonoid M]
variable {W : V → V → M} {r s b : Setoid V} {u v : V}

open Classical in
/-- The total weight from `u` into the class of `x`. -/
noncomputable def classWeight (W : V → V → M) (r : Setoid V) (u x : V) : M := ∑ y with r x y, W u y

/-- `u` and `v` have the same total weight into every class. -/
def SameWeights (W : V → V → M) (r : Setoid V) (u v : V) : Prop :=
  ∀ x, classWeight W r u x = classWeight W r v x

/-- Two nodes of one class have the same total weight into every class. -/
def Stable (W : V → V → M) (r : Setoid V) : Prop := ∀ u v, r u v → SameWeights W r u v

/-! ## Same weights -/

theorem SameWeights.refl (u : V) : SameWeights W r u u := fun _ => rfl

theorem SameWeights.symm (h : SameWeights W r u v) : SameWeights W r v u := fun x => (h x).symm

theorem SameWeights.trans {w : V} (h : SameWeights W r u v) (h' : SameWeights W r v w) :
    SameWeights W r u w := fun x => (h x).trans (h' x)

open Classical in
/-- A sum over all targets, grouped by the classes of the targets. -/
theorem sum_eq_sum_classWeight {N : Type*} [AddCommMonoid N] (g : V → M →+ N)
    (hg : ∀ y y', r y y' → g y = g y') (u : V) :
    ∑ y, g y (W u y) = ∑ q : Quotient r, g q.out (classWeight W r u q.out) := by
  rw [← Finset.sum_fiberwise Finset.univ (fun y => (Quotient.mk r y)) (fun y => g y (W u y))]
  refine Finset.sum_congr rfl fun q _ => ?_
  have hclass : ∀ y, Quotient.mk r y = q ↔ r q.out y := by
    intro y
    conv_lhs => rw [← Quotient.out_eq q]
    rw [Quotient.eq]
    exact ⟨fun h => r.symm h, fun h => r.symm h⟩
  unfold classWeight
  rw [map_sum]
  refine Finset.sum_congr (by ext y; simp [hclass]) fun y hy => ?_
  rw [hg y q.out (r.symm (Finset.mem_filter.1 hy).2)]

/-- **Sums that see only classes.**  A sum over all targets whose summand depends on the class of
the target alone is the same for two nodes with the same weights. -/
theorem SameWeights.sum_eq {N : Type*} [AddCommMonoid N] (h : SameWeights W r u v)
    (g : V → M →+ N) (hg : ∀ y y', r y y' → g y = g y') :
    ∑ y, g y (W u y) = ∑ y, g y (W v y) := by
  rw [sum_eq_sum_classWeight g hg, sum_eq_sum_classWeight g hg]
  exact Finset.sum_congr rfl fun q _ => by rw [h]

/-- Same weights into the classes of a partition, so into the classes of a coarser one. -/
theorem SameWeights.mono (h : SameWeights W r u v) (hrs : r ≤ s) : SameWeights W s u v := by
  classical
  intro x
  have key := h.sum_eq (fun y => if s x y then AddMonoidHom.id M else 0) (fun y y' hy => by
    have : s x y ↔ s x y' :=
      ⟨fun hx => s.trans hx (hrs hy), fun hx => s.trans hx (s.symm (hrs hy))⟩
    simp only [this])
  have hsum : ∀ w, ∑ y, (if s x y then AddMonoidHom.id M else 0) (W w y) = classWeight W s w x := by
    intro w
    unfold classWeight
    rw [Finset.sum_filter]
    refine Finset.sum_congr rfl fun y _ => ?_
    split_ifs <;> rfl
  rwa [hsum, hsum] at key

/-! ## The coarsest stable partition -/

theorem stable_sSup {S : Set (Setoid V)} (h : ∀ r ∈ S, Stable W r) : Stable W (sSup S) := by
  intro u v huv
  rw [Setoid.sSup_eq_eqvGen] at huv
  induction huv with
  | rel x y hxy =>
    obtain ⟨r, hr, hxy⟩ := hxy
    exact (h r hr x y hxy).mono (le_sSup hr)
  | refl x => exact SameWeights.refl x
  | symm x y _ ih => exact ih.symm
  | trans x y z _ _ ih₁ ih₂ => exact ih₁.trans ih₂

/-- The coarsest stable partition below `b`. -/
noncomputable def coarsest (W : V → V → M) (b : Setoid V) : Setoid V :=
  sSup {r | r ≤ b ∧ Stable W r}

theorem coarsest_stable (W : V → V → M) (b : Setoid V) : Stable W (coarsest W b) :=
  stable_sSup fun _ hr => hr.2

theorem coarsest_le (W : V → V → M) (b : Setoid V) : coarsest W b ≤ b :=
  sSup_le fun _ hr => hr.1

theorem le_coarsest (hb : r ≤ b) (h : Stable W r) : r ≤ coarsest W b := le_sSup ⟨hb, h⟩

theorem coarsest_eq (hb : r ≤ b) (h : Stable W r) (hmax : coarsest W b ≤ r) : r = coarsest W b :=
  le_antisymm (le_coarsest hb h) hmax

theorem coarsest_mono (h : r ≤ s) : coarsest W r ≤ coarsest W s :=
  le_coarsest ((coarsest_le W r).trans h) (coarsest_stable W r)

/-- Weights of another type, when no two weights become one, have the same coarsest stable
partition. -/
theorem coarsest_map {N : Type*} [AddCommMonoid N] (φ : M →+ N)
    (hφ : Function.Injective φ) (W : V → V → M) (b : Setoid V) :
    coarsest (fun u v => φ (W u v)) b = coarsest W b := by
  have hclass : ∀ r u x, classWeight (fun u v => φ (W u v)) r u x = φ (classWeight W r u x) :=
    fun r u x => (map_sum φ _ _).symm
  have hst : ∀ r, Stable (fun u v => φ (W u v)) r ↔ Stable W r := by
    intro r
    unfold Stable SameWeights
    simp only [hclass, hφ.eq_iff]
  unfold coarsest
  simp only [hst]

/-! ## One step of refinement -/

/-- The partition of the nodes by their total weights into the classes of `r`. -/
def refineStep (W : V → V → M) (r : Setoid V) : Setoid V where
  r := SameWeights W r
  iseqv := ⟨SameWeights.refl, SameWeights.symm, SameWeights.trans⟩

theorem refineStep_mono (h : r ≤ s) : refineStep W r ≤ refineStep W s :=
  fun _ _ huv => SameWeights.mono huv h

theorem stable_iff_le_refineStep : Stable W r ↔ r ≤ refineStep W r :=
  ⟨fun h _ _ huv => h _ _ huv, fun h _ _ huv => h huv⟩

/-- With no constraint, nodes with the same weights into the coarsest stable partition are
together in it. -/
theorem coarsest_top_iff : coarsest W ⊤ u v ↔ SameWeights W (coarsest W ⊤) u v := by
  refine ⟨coarsest_stable W ⊤ u v, fun h => ?_⟩
  have hle : coarsest W ⊤ ≤ refineStep W (coarsest W ⊤) :=
    stable_iff_le_refineStep.1 (coarsest_stable W ⊤)
  have hst : Stable W (refineStep W (coarsest W ⊤)) :=
    stable_iff_le_refineStep.2 (refineStep_mono hle)
  exact le_coarsest le_top hst h

/-! ## Counting classes -/

/-- The number of classes of a partition. -/
noncomputable def classCount (r : Setoid V) : ℕ := Nat.card (Quotient r)

/-- The class of a coarser partition that a class lies in. -/
def coarserClass (h : r ≤ s) : Quotient r → Quotient s := Quotient.map' id fun _ _ huv => h huv

omit [Fintype V] in
theorem coarserClass_surjective (h : r ≤ s) : Function.Surjective (coarserClass h) := by
  rintro ⟨v⟩
  exact ⟨Quotient.mk r v, rfl⟩

theorem classCount_mono (h : r ≤ s) : classCount s ≤ classCount r :=
  Nat.card_le_card_of_surjective _ (coarserClass_surjective h)

/-- A partition with no more classes than a coarser one is that partition. -/
theorem eq_of_le_of_classCount_le (h : r ≤ s) (hc : classCount r ≤ classCount s) : r = s := by
  have hinj := ((coarserClass_surjective h).bijective_of_nat_card_le hc).1
  refine le_antisymm h fun u v huv => ?_
  have : Quotient.mk r u = Quotient.mk r v := hinj (Quotient.sound huv)
  exact Quotient.exact this

omit [Fintype V] in
theorem classCount_bot : classCount (⊥ : Setoid V) = Nat.card V :=
  Nat.card_congr Setoid.quotientBotEquiv

theorem classCount_pos [hV : Nonempty V] : 0 < classCount r :=
  haveI : Nonempty (Quotient r) := hV.map (Quotient.mk r)
  Nat.card_pos

theorem classCount_le : classCount r ≤ Fintype.card V := by
  rw [← Nat.card_eq_fintype_card]
  exact Nat.card_le_card_of_surjective _ (Quotient.mk_surjective (s := r))

/-! ## Quotients and renamings -/

section Quotient

variable {V' : Type*} [Fintype V'] {W' : V' → V' → M}

open Classical in
/-- `W'` is the weight of the quotient of `W` by `q`: every node sends the weights of its class. -/
def IsQuotient (W : V → V → M) (q : V → V') (W' : V' → V' → M) : Prop :=
  ∀ u c, ∑ y with q y = c, W u y = W' (q u) c

theorem IsQuotient.classWeight_comap {q : V → V'} (h : IsQuotient W q W') (r' : Setoid V')
    (u x : V) : classWeight W (r'.comap q) u x = classWeight W' r' (q u) (q x) := by
  classical
  unfold classWeight
  simp only [← h u]
  rw [← Finset.sum_biUnion]
  · refine Finset.sum_congr ?_ fun _ _ => rfl
    ext y
    simp [Setoid.comap_rel]
  · intro c _ c' _ hne
    rw [Function.onFun, Finset.disjoint_left]
    intro y hy hy'
    exact hne ((Finset.mem_filter.1 hy).2.symm.trans (Finset.mem_filter.1 hy').2)

theorem IsQuotient.stable_comap_iff {q : V → V'} (h : IsQuotient W q W')
    (hq : Function.Surjective q) (r' : Setoid V') : Stable W (r'.comap q) ↔ Stable W' r' := by
  constructor
  · intro hst c d hcd e
    obtain ⟨u, rfl⟩ := hq c
    obtain ⟨v, rfl⟩ := hq d
    obtain ⟨x, rfl⟩ := hq e
    rw [← h.classWeight_comap, ← h.classWeight_comap]
    exact hst u v hcd x
  · intro hst u v huv x
    rw [h.classWeight_comap, h.classWeight_comap]
    exact hst _ _ huv _

omit [Fintype V'] in
/-- A quotient is a quotient by a stable partition. -/
theorem IsQuotient.stable_ker {q : V → V'} (h : IsQuotient W q W') : Stable W (Setoid.ker q) := by
  classical
  intro u v huv x
  have key : ∀ w, classWeight W (Setoid.ker q) w x = W' (q w) (q x) := by
    intro w
    rw [← h w (q x)]
    exact Finset.sum_congr (by ext y; simp [Setoid.ker_def, eq_comm]) fun _ _ => rfl
  rw [key, key, show q u = q v from huv]

/-- **The coarsest stable partition of the quotient is that of the graph.** -/
theorem coarsest_eq_comap {q : V → V'} (h : IsQuotient W q W') (hq : Function.Surjective q) :
    coarsest W ⊤ = (coarsest W' ⊤).comap q := by
  have hker : Setoid.ker q ≤ coarsest W ⊤ := le_coarsest le_top h.stable_ker
  refine le_antisymm ?_ ?_
  · -- the coarsest partition of the graph comes from a partition of the quotient
    let R := (coarsest W ⊤).mapOfSurjective q hker hq
    have hR : R.comap q = coarsest W ⊤ := by
      ext u v
      constructor
      · rintro ⟨a, b, hab, ha, hb⟩
        exact (coarsest W ⊤).trans ((coarsest W ⊤).symm (hker ha))
          ((coarsest W ⊤).trans hab (hker hb))
      · exact fun huv => ⟨u, v, huv, rfl, rfl⟩
    have hst : Stable W' R := by
      rw [← h.stable_comap_iff hq, hR]
      exact coarsest_stable W ⊤
    rw [← hR]
    exact fun u v huv => le_coarsest le_top hst huv
  · exact le_coarsest le_top ((h.stable_comap_iff hq _).2 (coarsest_stable W' ⊤))

/-- The classes of the quotient by the coarsest stable partition are not merged further. -/
theorem IsQuotient.coarsest_eq_bot {q : V → V'} (h : IsQuotient W q W')
    (hq : Function.Surjective q) {b' : Setoid V'}
    (hker : coarsest W (b'.comap q) = Setoid.ker q) : coarsest W' b' = ⊥ := by
  have hle : (coarsest W' b').comap q ≤ Setoid.ker q := by
    rw [← hker]
    exact le_coarsest (fun u v huv => coarsest_le W' b' huv)
      ((h.stable_comap_iff hq _).2 (coarsest_stable W' b'))
  refine le_bot_iff.1 fun c d hcd => ?_
  obtain ⟨u, rfl⟩ := hq c
  obtain ⟨v, rfl⟩ := hq d
  exact hle hcd

omit [Fintype V] [Fintype V'] in
theorem classCount_comap {q : V → V'} (hq : Function.Surjective q) (r' : Setoid V') :
    classCount (r'.comap q) = classCount r' := by
  refine Nat.card_eq_of_bijective (Quotient.map' q fun _ _ huv => huv) ⟨?_, ?_⟩
  · rintro ⟨u⟩ ⟨v⟩ huv
    exact Quotient.sound (s := r'.comap q) (Quotient.exact (s := r') huv)
  · rintro ⟨c⟩
    obtain ⟨u, rfl⟩ := hq c
    exact ⟨Quotient.mk _ u, rfl⟩

/-- A quotient of a quotient. -/
theorem IsQuotient.comp {V'' : Type*} {W'' : V'' → V'' → M} {q : V → V'} {q' : V' → V''}
    (h : IsQuotient W q W') (h' : IsQuotient W' q' W'') : IsQuotient W (q' ∘ q) W'' := by
  classical
  intro u c
  rw [Function.comp_apply, ← h' (q u) c]
  simp only [← h u]
  rw [← Finset.sum_biUnion]
  · exact Finset.sum_congr (by ext y; simp) fun _ _ => rfl
  · intro d _ d' _ hne
    rw [Function.onFun, Finset.disjoint_left]
    intro y hy hy'
    exact hne ((Finset.mem_filter.1 hy).2.symm.trans (Finset.mem_filter.1 hy').2)

theorem IsQuotient.classCount_coarsest {q : V → V'} (h : IsQuotient W q W')
    (hq : Function.Surjective q) : classCount (coarsest W ⊤) = classCount (coarsest W' ⊤) := by
  rw [coarsest_eq_comap h hq, classCount_comap hq]

omit [Fintype V'] in
theorem isQuotient_of_equiv (e : V ≃ V') (h : ∀ u v, W' (e u) (e v) = W u v) :
    IsQuotient W e W' := by
  classical
  intro u c
  have : (Finset.univ.filter fun y => e y = c) = {e.symm c} := by
    ext y
    simp [Equiv.eq_symm_apply]
  rw [this, Finset.sum_singleton, ← h, Equiv.apply_symm_apply]

/-- **The coarsest stable partition commutes with a renaming of the nodes.** -/
theorem coarsest_congr (e : V ≃ V') (h : ∀ u v, W' (e u) (e v) = W u v) {b : Setoid V}
    {b' : Setoid V'} (hb : ∀ u v, b' (e u) (e v) ↔ b u v) (u v : V) :
    coarsest W' b' (e u) (e v) ↔ coarsest W b u v := by
  have hq := isQuotient_of_equiv e h
  have hq' : IsQuotient W' e.symm W :=
    isQuotient_of_equiv e.symm fun u v => by rw [← h]; simp
  constructor
  · intro huv
    have hle : (coarsest W' b').comap e ≤ coarsest W b :=
      le_coarsest (fun x y hxy => (hb x y).1 (coarsest_le W' b' hxy))
        ((hq.stable_comap_iff e.surjective _).2 (coarsest_stable W' b'))
    exact hle huv
  · intro huv
    have hle : (coarsest W b).comap e.symm ≤ coarsest W' b' := by
      refine le_coarsest (fun x y hxy => ?_)
        ((hq'.stable_comap_iff e.symm.surjective _).2 (coarsest_stable W b))
      have := (hb _ _).2 (coarsest_le W b hxy)
      simpa using this
    exact hle (by simpa [Setoid.comap_rel] using huv)

end Quotient

end Lumping
