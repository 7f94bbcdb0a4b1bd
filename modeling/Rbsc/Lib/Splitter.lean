import Rbsc.Lib.Lumping

/-!
# Refinement with pending splitters

A partition is held by block numbers.  A round takes the block of one number, the splitter, and
divides every block by the weights into it; one part of a divided block keeps its number and the
others get fresh ones.  The splitters are taken once each, in the order of their numbers.  So a
block that is divided after its turn never has the part that kept its number taken again: that the
other parts are still pending is enough (`Pending`), and when no splitter is pending the partition
is stable (`Pending.stable`).

* `weightInto W D u`: the total weight from `u` into the set `D`;
* `Pending W f s`: the invariant when the splitters below `s` have been taken;
* `Pending.next`: one round keeps it;
* `ker_eq_coarsest`: a partition with no pending splitter that has separated no nodes of one class
  of the coarsest stable partition is that partition.
-/

namespace Splitter

open Lumping

variable {V : Type*} [Fintype V] {M : Type*} [AddCancelCommMonoid M] {W : V → V → M}
variable {f f' : V → ℕ} {u v : V} {D : Set V}

open Classical in
/-- The total weight from `u` into `D`. -/
noncomputable def weightInto (W : V → V → M) (D : Set V) (u : V) : M := ∑ y with y ∈ D, W u y

/-- The nodes with the number `b`. -/
def block (f : V → ℕ) (b : ℕ) : Set V := {v | f v = b}

omit [Fintype V] in
@[simp] theorem mem_block {b : ℕ} : v ∈ block f b ↔ f v = b := Iff.rfl

/-- Nodes of one block have the same weight into `D`. -/
def StableFor (W : V → V → M) (f : V → ℕ) (D : Set V) : Prop :=
  ∀ u v, f u = f v → weightInto W D u = weightInto W D v

/-- `D` is a union of blocks. -/
def Union (f : V → ℕ) (D : Set V) : Prop := ∀ u v, f u = f v → (u ∈ D ↔ v ∈ D)

/-- Every block with a number below `s` lies in a union of blocks that the partition is stable for
and whose other blocks all have numbers from `s` on. -/
def Pending (W : V → V → M) (f : V → ℕ) (s : ℕ) : Prop :=
  ∀ b < s, ∃ D, block f b ⊆ D ∧ Union f D ∧ StableFor W f D ∧ ∀ x ∈ D, f x = b ∨ s ≤ f x

/-- `f'` divides the blocks of `f`, which have numbers up to `nr`, by the weights into block `s`. -/
structure Round (W : V → V → M) (nr s : ℕ) (f f' : V → ℕ) : Prop where
  /-- Two nodes stay together when they have the same weight into the splitter. -/
  together : ∀ u v, f' u = f' v ↔
    f u = f v ∧ weightInto W (block f s) u = weightInto W (block f s) v
  /-- A node keeps its number or gets a fresh one. -/
  fresh : ∀ u, f' u = f u ∨ nr < f' u

/-! ## Weights into sets -/

theorem weightInto_empty (u : V) : weightInto W ∅ u = 0 := by simp [weightInto]

/-- The weight into a set, part by part. -/
theorem weightInto_diff {C : Set V} (h : C ⊆ D) (u : V) :
    weightInto W D u = weightInto W C u + weightInto W (D \ C) u := by
  unfold weightInto
  rw [Finset.sum_filter, Finset.sum_filter, Finset.sum_filter, ← Finset.sum_add_distrib]
  refine Finset.sum_congr rfl fun y _ => ?_
  by_cases hC : y ∈ C
  · have hdiff : y ∉ D \ C := fun hy => hy.2 hC
    rw [if_pos (h hC), if_pos hC, if_neg hdiff, add_zero]
  · by_cases hD : y ∈ D
    · rw [if_pos hD, if_neg hC, if_pos (Set.mem_sdiff_of_mem hD hC), zero_add]
    · have hdiff : y ∉ D \ C := fun hy => hD hy.1
      rw [if_neg hD, if_neg hC, if_neg hdiff, zero_add]

/-- The weight into a block is the weight into a class. -/
theorem weightInto_block (u x : V) :
    weightInto W (block f (f x)) u = classWeight W (Setoid.ker f) u x := by
  classical
  unfold weightInto classWeight
  refine Finset.sum_congr ?_ fun _ _ => rfl
  ext y
  simp [Setoid.ker_def, eq_comm]

theorem StableFor.diff {C : Set V} (hD : StableFor W f D) (hC : StableFor W f C) (h : C ⊆ D) :
    StableFor W f (D \ C) := by
  intro u v huv
  have hu := weightInto_diff (W := W) h u
  have hv := weightInto_diff (W := W) h v
  rw [← hD u v huv, hu, hC u v huv] at hv
  exact add_left_cancel hv

/-! ## One round -/

section Round

variable {nr s : ℕ} (h : Round W nr s f f')

include h

theorem Round.refines (huv : f' u = f' v) : f u = f v := ((h.together u v).1 huv).1

theorem Round.union (hD : Union f D) : Union f' D := fun u v huv => hD u v (h.refines huv)

theorem Round.stableFor (hD : StableFor W f D) : StableFor W f' D := fun u v huv =>
  hD u v (h.refines huv)

theorem Round.stableFor_splitter : StableFor W f' (block f s) := fun u v huv =>
  ((h.together u v).1 huv).2

/-- The part that keeps a number up to `nr` is a part of the block of that number. -/
theorem Round.block_subset {b : ℕ} (hb : b ≤ nr) : block f' b ⊆ block f b := by
  intro x hx
  rcases h.fresh x with hfx | hfx
  · rw [mem_block, ← hfx]
    exact hx
  · rw [mem_block] at hx
    omega

/-- A node with a number from `s` on keeps such a number. -/
theorem Round.le (hs : s ≤ nr) {t : ℕ} (ht : t ≤ s + 1) {x : V} (hx : t ≤ f x) : t ≤ f' x := by
  rcases h.fresh x with hfx | hfx <;> omega

/-- **One round keeps the invariant.**  A union of blocks that holds the splitter goes on without
it, one that does not is kept, and the splitter itself is the union for its own number. -/
theorem Pending.next (hs : s ≤ nr) (hp : Pending W f s) : Pending W f' (s + 1) := by
  intro b hb
  have hsub : block f' b ⊆ block f b := h.block_subset (by omega)
  by_cases hbs : b = s
  · subst hbs
    refine ⟨block f b, hsub, h.union ?_, h.stableFor_splitter, ?_⟩
    · exact fun u v huv => by rw [mem_block, mem_block, huv]
    · intro x hx
      rw [mem_block] at hx
      rcases h.fresh x with hfx | hfx <;> omega
  · obtain ⟨D, hbD, hU, hD, hrest⟩ := hp b (by omega)
    -- the numbers in `D` other than that of the splitter
    have hkeep : ∀ x ∈ D, f x ≠ s → f' x = b ∨ s + 1 ≤ f' x := by
      intro x hx hxs
      have := hrest x hx
      rcases h.fresh x with hfx | hfx <;> omega
    by_cases hsD : ∃ x ∈ D, f x = s
    · obtain ⟨x, hxD, hxs⟩ := hsD
      have hC : block f s ⊆ D := fun y hy => (hU x y (hxs.trans (mem_block.1 hy).symm)).1 hxD
      refine ⟨D \ block f s, fun y hy => ⟨hbD (hsub hy), ?_⟩, ?_, ?_, ?_⟩
      · have hyb := mem_block.1 (hsub hy)
        intro hys
        exact hbs (hyb.symm.trans (mem_block.1 hys))
      · refine h.union fun u v huv => ?_
        rw [Set.mem_sdiff, Set.mem_sdiff, mem_block, mem_block, hU u v huv, huv]
      · exact (h.stableFor hD).diff h.stableFor_splitter hC
      · exact fun y hy => hkeep y hy.1 hy.2
    · refine ⟨D, fun y hy => hbD (hsub hy), h.union hU, h.stableFor hD, fun y hy => ?_⟩
      exact hkeep y hy fun hys => hsD ⟨y, hy, hys⟩

/-- **One round separates no nodes of one class of the coarsest stable partition**, below whatever
partition that is. -/
theorem Round.coarsest_le {r : Setoid V} (hle : coarsest W r ≤ Setoid.ker f) :
    coarsest W r ≤ Setoid.ker f' := by
  intro u v huv
  have hsame := (coarsest_stable W r u v huv).mono hle
  refine (h.together u v).2 ⟨hle huv, ?_⟩
  by_cases hs : ∃ x, f x = s
  · obtain ⟨x, rfl⟩ := hs
    rw [weightInto_block, weightInto_block]
    exact hsame x
  · have hempty : block f s = ∅ := Set.eq_empty_iff_forall_notMem.2 fun x hx => hs ⟨x, hx⟩
    rw [hempty, weightInto_empty, weightInto_empty]

end Round

/-! ## The first and the last round -/

/-- Before the first round, when the numbers start from `1`. -/
theorem pending_one (hf : ∀ u, 1 ≤ f u) : Pending W f 1 := by
  intro b hb
  refine ⟨∅, ?_, fun _ _ _ => Iff.rfl, fun u v _ => ?_, fun x hx => absurd hx (Set.notMem_empty x)⟩
  · intro x hx
    have := hf x
    rw [mem_block] at hx
    omega
  · rw [weightInto_empty, weightInto_empty]

/-- **With no splitter pending the partition is stable.** -/
theorem Pending.stable {s : ℕ} (hp : Pending W f s) (hs : ∀ u, f u < s) :
    Stable W (Setoid.ker f) := by
  intro u v huv x
  obtain ⟨D, hbD, -, hD, hrest⟩ := hp (f x) (hs x)
  have hblock : D = block f (f x) := by
    refine Set.Subset.antisymm (fun y hy => ?_) hbD
    have := hs y
    rcases hrest y hy with hyx | hyx
    · exact hyx
    · omega
  rw [← weightInto_block, ← weightInto_block, ← hblock]
  exact hD u v huv

theorem ker_eq_coarsest {s : ℕ} (hp : Pending W f s) (hs : ∀ u, f u < s)
    (hle : coarsest W ⊤ ≤ Setoid.ker f) : Setoid.ker f = coarsest W ⊤ :=
  coarsest_eq le_top (hp.stable hs) hle

end Splitter
