import Rbsc.Lib.Lumping
import Rbsc.Lib.Loop

/-!
# Loops that refine a partition until the number of classes stands still

The body refines a partition `P` and counts its classes in `new`, keeping the former count in `old`;
the loop goes on while the two differ.  Nothing is asked of the count before the first round, which
need not be the number of classes.

* `RefineLoop.entered_le`: no round comes after round `card V`, so the loop returns;
* `RefineLoop.of_early`: it is enough that the first `card V + 1` rounds refine;
* `RefineLoop.partition_eq`: a later round that ends the loop has not changed the partition.
-/

namespace Lumping

open DoWhile

variable {V σ : Type*} [Fintype V] [Nonempty V] {body : σ → Option σ} {again : σ → Bool} {s₀ : σ}

/-- The rounds of the loop refine `P` and count its classes. -/
structure RefineLoop (body : σ → Option σ) (again : σ → Bool) (s₀ : σ) (P : σ → Setoid V)
    (old new : σ → ℕ) : Prop where
  /-- The loop goes on when the counts differ. -/
  again_iff : ∀ s, again s = true ↔ old s ≠ new s
  /-- The former count is kept. -/
  keeps : ∀ k s s', Entered body again s₀ k s → body s = some s' → old s' = new s
  /-- The new count is the number of classes. -/
  counts : ∀ k s s', Entered body again s₀ k s → body s = some s' → new s' = classCount (P s')
  /-- The new partition refines the old one. -/
  refines : ∀ k s s', Entered body again s₀ k s → body s = some s' → P s' ≤ P s

namespace RefineLoop

variable {P : σ → Setoid V} {old new : σ → ℕ}

omit [Fintype V] [Nonempty V] in
theorem counts_succ (h : RefineLoop body again s₀ P old new) {k : ℕ} {s : σ}
    (hs : Entered body again s₀ (k + 1) s) : new s = classCount (P s) := by
  cases hs with
  | next hs hb ha => exact h.counts _ _ _ hs hb

section Early

variable (hagain : ∀ s, again s = true ↔ old s ≠ new s)
  (hkeeps : ∀ k s s', Entered body again s₀ k s → body s = some s' → old s' = new s)
  (hcounts : ∀ k s s', Entered body again s₀ k s → body s = some s' → new s' = classCount (P s'))
  (hrefines : ∀ k ≤ Fintype.card V, ∀ s s', Entered body again s₀ k s → body s = some s' →
    P s' ≤ P s)

include hagain hkeeps hcounts hrefines

/-- After round `k` there are at least `k` classes. -/
theorem le_classCount_of_early {k : ℕ} {s : σ} (hs : Entered body again s₀ k s) :
    k ≤ classCount (P s) := by
  induction hs with
  | start => exact Nat.zero_le _
  | @next k s s' hs hb ha ih =>
    have hle := classCount_mono (hrefines k (ih.trans classCount_le) s s' hs hb)
    cases hs with
    | start => exact classCount_pos
    | next hs₀ hb₀ ha₀ =>
      have hne := (hagain s').1 ha
      rw [hkeeps _ _ _ (.next hs₀ hb₀ ha₀) hb, hcounts _ _ _ hs₀ hb₀,
        hcounts _ _ _ (.next hs₀ hb₀ ha₀) hb] at hne
      omega

/-- **A loop whose first rounds refine** has no other rounds. -/
theorem of_early : RefineLoop body again s₀ P old new where
  again_iff := hagain
  keeps := hkeeps
  counts := hcounts
  refines k s s' hs hb := hrefines k
    ((le_classCount_of_early hagain hkeeps hcounts hrefines hs).trans classCount_le) s s' hs hb

end Early

theorem le_classCount (h : RefineLoop body again s₀ P old new) {k : ℕ} {s : σ}
    (hs : Entered body again s₀ k s) : k ≤ classCount (P s) :=
  le_classCount_of_early h.again_iff h.keeps h.counts (fun k _ s s' => h.refines k s s') hs

theorem entered_le (h : RefineLoop body again s₀ P old new) {k : ℕ} {s : σ}
    (hs : Entered body again s₀ k s) : k ≤ Fintype.card V :=
  (h.le_classCount hs).trans classCount_le

/-- **The loop returns.** -/
theorem returns (h : RefineLoop body again s₀ P old new)
    (hbody : ∀ k s, Entered body again s₀ k s → ∃ s', body s = some s') :
    ∃ s', doWhile body again (Fintype.card V + 1) s₀ = some s' :=
  doWhile_returns hbody fun _ _ hs => h.entered_le hs

omit [Nonempty V] in
/-- **The last round changes nothing**, unless it is the first one. -/
theorem partition_eq (h : RefineLoop body again s₀ P old new) {k : ℕ} {s s' : σ}
    (hs : Entered body again s₀ (k + 1) s) (hb : body s = some s') (ha : again s' = false) :
    P s' = P s := by
  refine eq_of_le_of_classCount_le (h.refines _ _ _ hs hb) ?_
  have heq : old s' = new s' := by
    by_contra hne
    have := (h.again_iff s').2 hne
    simp [ha] at this
  rw [← h.counts _ _ _ hs hb, ← heq, h.keeps _ _ _ hs hb, h.counts_succ hs]

end RefineLoop

end Lumping
