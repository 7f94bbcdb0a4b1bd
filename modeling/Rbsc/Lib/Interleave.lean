import Mathlib

/-!
# Interleaved workers

Workers that run one program on shared variables and on variables of their own: in one step of the
whole, one worker makes one step.

* `Config`, `Step`, `Reach`: the states, one step of some worker, and any number of them;
* `reach_alone`: while one worker runs alone, the variables of the others stay;
* `leads_of_measure`: a worker alone reaches its target, when a measure falls with every step;
* `Reach.inv_alone`: an invariant of the only worker that is not idle holds in every run;
* `Move`, `Moves`: the same for workers that choose what they do; every run of them ends when the
  moves lower a measure of the shared variables and of the mover's own (`move_wellFounded`).
-/

namespace Interleave

variable {ι σ τ : Type*} [DecidableEq ι]

/-- The shared variables, and each worker's own. -/
@[ext] structure Config (ι σ τ : Type*) where
  shared : σ
  own : ι → τ

/-- Worker `p` makes one step. -/
def Config.step (exec : σ → τ → σ × τ) (c : Config ι σ τ) (p : ι) : Config ι σ τ where
  shared := (exec c.shared (c.own p)).1
  own := Function.update c.own p (exec c.shared (c.own p)).2

section Step

variable (exec : σ → τ → σ × τ) (c : Config ι σ τ) (p : ι)

@[simp] theorem step_shared : (c.step exec p).shared = (exec c.shared (c.own p)).1 := rfl

@[simp] theorem step_own_self : (c.step exec p).own p = (exec c.shared (c.own p)).2 :=
  Function.update_self ..

theorem step_own_of_ne {q : ι} (h : q ≠ p) : (c.step exec p).own q = c.own q :=
  Function.update_of_ne h ..

end Step

/-- Some worker makes one step. -/
def Step (exec : σ → τ → σ × τ) (c c' : Config ι σ τ) : Prop := ∃ p, c' = c.step exec p

/-- The workers make any number of steps, in any order. -/
def Reach (exec : σ → τ → σ × τ) : Config ι σ τ → Config ι σ τ → Prop :=
  Relation.ReflTransGen (Step exec)

/-- The steps of a worker alone. -/
def alone (exec : σ → τ → σ × τ) (t : ℕ) (x : σ × τ) : σ × τ := (fun x => exec x.1 x.2)^[t] x

variable {exec : σ → τ → σ × τ} {c c' : Config ι σ τ} {p : ι}

theorem Reach.refl (c : Config ι σ τ) : Reach exec c c := Relation.ReflTransGen.refl

theorem Reach.trans {c'' : Config ι σ τ} (h : Reach exec c c') (h' : Reach exec c' c'') :
    Reach exec c c'' := Relation.ReflTransGen.trans h h'

theorem reach_step (c : Config ι σ τ) (p : ι) : Reach exec c (c.step exec p) :=
  Relation.ReflTransGen.single ⟨p, rfl⟩

/-- A schedule: the workers of a list make a step each. -/
theorem reach_foldl (c : Config ι σ τ) (l : List ι) : Reach exec c (l.foldl (Config.step exec) c) := by
  induction l generalizing c with
  | nil => exact Reach.refl c
  | cons p l ih => exact (reach_step c p).trans (ih _)

theorem alone_succ (t : ℕ) (x : σ × τ) :
    alone exec (t + 1) x = exec (alone exec t x).1 (alone exec t x).2 :=
  Function.iterate_succ_apply' _ t x

/-- **A worker alone** leaves the variables of the others as they are. -/
theorem reach_alone (c : Config ι σ τ) (p : ι) (t : ℕ) :
    Reach exec c ⟨(alone exec t (c.shared, c.own p)).1,
      Function.update c.own p (alone exec t (c.shared, c.own p)).2⟩ := by
  induction t with
  | zero =>
    change Reach exec c ⟨c.shared, Function.update c.own p (c.own p)⟩
    rw [Function.update_eq_self]
    exact Reach.refl c
  | succ t ih =>
    apply ih.trans
    rw [alone_succ]
    set c' : Config ι σ τ := ⟨(alone exec t (c.shared, c.own p)).1,
      Function.update c.own p (alone exec t (c.shared, c.own p)).2⟩ with hc'
    have hstep : Reach exec c' (c'.step exec p) := reach_step c' p
    simpa [hc', Config.step] using hstep

/-- Worker `p`, alone, gets from `A` to `T`. -/
def Leads (exec : σ → τ → σ × τ) (A T : σ → τ → Prop) : Prop :=
  ∀ s l, A s l → ∃ t, T (alone exec t (s, l)).1 (alone exec t (s, l)).2

/-- **The progress rule.** -/
theorem leads_of_measure {A T : σ → τ → Prop} {α : Type*} [Preorder α] [WellFoundedLT α]
    (μ : τ → α)
    (hstep : ∀ s l, A s l → ¬ T s l → A (exec s l).1 (exec s l).2 ∧ μ (exec s l).2 < μ l) :
    Leads exec A T := by
  intro s l
  induction h : μ l using WellFoundedLT.induction generalizing s l with
  | _ m ih =>
    intro hA
    by_cases hT : T s l
    · exact ⟨0, hT⟩
    · obtain ⟨hA', hlt⟩ := hstep s l hA hT
      obtain ⟨t, ht⟩ := ih _ (h ▸ hlt) _ _ rfl hA'
      exact ⟨t + 1, ht⟩

/-- What a worker reaches alone, in the whole. -/
theorem Leads.reach {A T : σ → τ → Prop} (h : Leads exec A T) (hA : A c.shared (c.own p)) :
    ∃ c', Reach exec c c' ∧ T c'.shared (c'.own p) ∧ ∀ q ≠ p, c'.own q = c.own q := by
  obtain ⟨t, ht⟩ := h _ _ hA
  refine ⟨_, reach_alone c p t, ?_, fun q hq => Function.update_of_ne hq _ _⟩
  simpa only [Function.update_self] using ht

/-- **The invariant rule for one worker** that is not idle. -/
theorem Reach.inv_alone {I : σ → τ → Prop} (h : Reach exec c c')
    (hidle : ∀ q ≠ p, ∀ s, exec s (c.own q) = (s, c.own q)) (h0 : I c.shared (c.own p))
    (hstep : ∀ s l, I s l → I (exec s l).1 (exec s l).2) :
    I c'.shared (c'.own p) ∧ ∀ q ≠ p, c'.own q = c.own q := by
  induction h with
  | refl => exact ⟨h0, fun _ _ => rfl⟩
  | tail _ hs ih =>
    obtain ⟨hI, hown⟩ := ih
    obtain ⟨q, rfl⟩ := hs
    by_cases hq : q = p
    · subst hq
      refine ⟨?_, fun r hr => ?_⟩
      · rw [step_shared, step_own_self]
        exact hstep _ _ hI
      · exact (step_own_of_ne exec _ _ hr).trans (hown r hr)
    · have hex := hidle q hq
      rw [← hown q hq] at hex
      refine ⟨?_, fun r hr => ?_⟩
      · rw [step_shared, hex, step_own_of_ne exec _ _ (Ne.symm hq)]
        exact hI
      · simp only [Config.step, hex, Function.update_eq_self]
        exact hown r hr

/-! ## Workers that choose -/

/-- Some worker makes one of the moves that `R` allows it. -/
def Move (R : σ → τ → σ → τ → Prop) (c c' : Config ι σ τ) : Prop :=
  ∃ p s l, R c.shared (c.own p) s l ∧ c' = ⟨s, Function.update c.own p l⟩

/-- Any number of moves, in any order. -/
def Moves (R : σ → τ → σ → τ → Prop) : Config ι σ τ → Config ι σ τ → Prop :=
  Relation.ReflTransGen (Move R)

/-- Any number of moves of one worker. -/
def Solo (R : σ → τ → σ → τ → Prop) : σ × τ → σ × τ → Prop :=
  Relation.ReflTransGen fun x y => R x.1 x.2 y.1 y.2

section Moves

variable {R : σ → τ → σ → τ → Prop}

/-- A move of worker `p`. -/
theorem move_of {s : σ} {l l' : τ} (hp : c.own p = l) (h : R c.shared l s l') :
    Move R c ⟨s, Function.update c.own p l'⟩ := by
  subst hp
  exact ⟨p, s, l', h, rfl⟩

/-- **One worker moves alone.** -/
theorem Solo.moves {x : σ × τ} (c : Config ι σ τ) (p : ι) (h : Solo R (c.shared, c.own p) x) :
    Moves R c ⟨x.1, Function.update c.own p x.2⟩ := by
  induction h with
  | refl =>
    rw [Function.update_eq_self]
    exact Relation.ReflTransGen.refl
  | @tail x y _ hxy ih =>
    refine ih.tail ⟨p, y.1, y.2, ?_, ?_⟩
    · dsimp only
      rwa [Function.update_self]
    · rw [Function.update_idem]

/-- Fewer moves are allowed. -/
theorem Moves.mono {R' : σ → τ → σ → τ → Prop} (hR : ∀ s l s' l', R s l s' l' → R' s l s' l')
    (h : Moves R c c') : Moves R' c c' := by
  induction h with
  | refl => exact Relation.ReflTransGen.refl
  | tail _ hm ih =>
    obtain ⟨p, s, l, hm, he⟩ := hm
    exact ih.tail ⟨p, s, l, hR _ _ _ _ hm, he⟩

/-- **The invariant rule.** -/
theorem Moves.inv {I : Config ι σ τ → Prop} (h : Moves R c c') (h0 : I c)
    (hstep : ∀ c p s l, I c → R c.shared (c.own p) s l → I ⟨s, Function.update c.own p l⟩) :
    I c' := by
  induction h with
  | refl => exact h0
  | tail _ hm ih =>
    obtain ⟨p, s, l, hm, rfl⟩ := hm
    exact hstep _ p s l ih hm

/-- The measure of the whole: that of the shared variables, and those of all workers. -/
def total [Fintype ι] (μ : σ → ℕ) (ν : τ → ℕ) (c : Config ι σ τ) : ℕ :=
  μ c.shared + ∑ p, ν (c.own p)

/-- **Every run ends**, when every move lowers what it can change. -/
theorem total_lt [Fintype ι] {μ : σ → ℕ} {ν : τ → ℕ}
    (hR : ∀ s l s' l', R s l s' l' → μ s' + ν l' < μ s + ν l) (h : Move R c c') :
    total μ ν c' < total μ ν c := by
  obtain ⟨p, s, l, hm, rfl⟩ := h
  have hlt := hR _ _ _ _ hm
  have hrest : ∑ q ∈ Finset.univ.erase p, ν (Function.update c.own p l q) =
      ∑ q ∈ Finset.univ.erase p, ν (c.own q) :=
    Finset.sum_congr rfl fun q hq => by rw [Function.update_of_ne (Finset.ne_of_mem_erase hq)]
  unfold total
  rw [← Finset.add_sum_erase _ _ (Finset.mem_univ p), ← Finset.add_sum_erase _ _ (Finset.mem_univ p)]
  dsimp only
  rw [Function.update_self, hrest]
  omega

theorem move_wellFounded [Fintype ι] {μ : σ → ℕ} {ν : τ → ℕ}
    (hR : ∀ s l s' l', R s l s' l' → μ s' + ν l' < μ s + ν l) :
    WellFounded fun c' c : Config ι σ τ => Move R c c' :=
  Subrelation.wf (fun h => total_lt hR h) (measure (total μ ν)).wf

end Moves

end Interleave
