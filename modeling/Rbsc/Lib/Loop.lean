import Mathlib

/-!
# Loops

A loop whose body may fail to return and whose test may never fail is given by its fuelled
iteration `doWhile`; the states at the start of each of its rounds are the `Entered` ones.  A loop
returns exactly when the body takes some entered state to one that the test stops at
(`doWhile_eq_some_iff`).

* `Entered.inv`: an invariant of the rounds holds at every round;
* `doWhile_returns`: a loop whose body always returns and whose rounds are bounded returns;
* `Entered.of_counted`, `doWhile_counted`: a loop with one more conjunct enters rounds of the loop;
* `doWhile_rel`, `entered_rel`: two loops whose bodies keep their states related have the same
  number of rounds, enter them in related states and return related states.

A `for` loop is a fold over an interval; `foldl_Ico` and `foldr_Ico` are its invariant rules, one
for each direction.
-/

namespace DoWhile

variable {σ τ : Type*}

/-- `do s := body s while (again s)`, given up after `fuel` rounds. -/
def doWhile (body : σ → Option σ) (again : σ → Bool) : ℕ → σ → Option σ
  | 0, _ => none
  | fuel + 1, s => (body s).bind fun s' => if again s' then doWhile body again fuel s' else some s'

/-- `while (again s) s := body s`, given up after `fuel` rounds. -/
def whileDo (body : σ → Option σ) (again : σ → Bool) (fuel : ℕ) (s : σ) : Option σ :=
  if again s then doWhile body again fuel s else some s

/-- `s` is the state at the start of round `k`, counted from `0`. -/
inductive Entered (body : σ → Option σ) (again : σ → Bool) (s₀ : σ) : ℕ → σ → Prop
  | start : Entered body again s₀ 0 s₀
  | next {k : ℕ} {s s' : σ} (hs : Entered body again s₀ k s) (hb : body s = some s')
      (ha : again s' = true) : Entered body again s₀ (k + 1) s'

variable {body : σ → Option σ} {again : σ → Bool} {s₀ : σ}

/-- **The invariant rule.** -/
theorem Entered.inv {I : ℕ → σ → Prop} (h0 : I 0 s₀)
    (hstep : ∀ k s s', Entered body again s₀ k s → I k s → body s = some s' → again s' = true →
      I (k + 1) s') :
    ∀ {k s}, Entered body again s₀ k s → I k s := by
  intro k s h
  induction h with
  | start => exact h0
  | next hs hb ha ih => exact hstep _ _ _ hs ih hb ha

theorem Entered.unique {k : ℕ} {s s' : σ} (h : Entered body again s₀ k s)
    (h' : Entered body again s₀ k s') : s = s' := by
  induction h generalizing s' with
  | start => cases h'; rfl
  | next hs hb ha ih =>
    cases h' with
    | next hs' hb' ha' =>
      cases ih hs'
      exact Option.some.inj (hb.symm.trans hb')

/-- A body that returns more often enters the same rounds. -/
theorem Entered.mono {body' : σ → Option σ} (hb : ∀ s s', body s = some s' → body' s = some s')
    {k : ℕ} {s : σ} (h : Entered body again s₀ k s) : Entered body' again s₀ k s := by
  induction h with
  | start => exact .start
  | next _ hs ha ih => exact .next ih (hb _ _ hs) ha

/-- The rounds of a loop entered after one round are the later rounds of the loop. -/
theorem Entered.shift {s₁ s : σ} {k : ℕ} (hb : body s₀ = some s₁) (ha : again s₁ = true)
    (h : Entered body again s₁ k s) : Entered body again s₀ (k + 1) s := by
  induction h with
  | start => exact .next .start hb ha
  | next _ hb' ha' ih => exact .next ih hb' ha'

theorem Entered.cases_succ {s : σ} {k : ℕ} (h : Entered body again s₀ (k + 1) s) :
    ∃ s₁, body s₀ = some s₁ ∧ again s₁ = true ∧ Entered body again s₁ k s := by
  induction k generalizing s with
  | zero =>
    cases h with
    | next hs hb ha =>
      cases hs
      exact ⟨s, hb, ha, .start⟩
  | succ k ih =>
    cases h with
    | next hs hb ha =>
      obtain ⟨s₁, hb₁, ha₁, hs₁⟩ := ih hs
      exact ⟨s₁, hb₁, ha₁, .next hs₁ hb ha⟩

/-- **When a loop returns.** -/
theorem doWhile_eq_some_iff {fuel : ℕ} {s' : σ} :
    doWhile body again fuel s₀ = some s' ↔
      ∃ k < fuel, ∃ s, Entered body again s₀ k s ∧ body s = some s' ∧ again s' = false := by
  induction fuel generalizing s₀ with
  | zero => simp [doWhile]
  | succ fuel ih =>
    constructor
    · intro h
      obtain ⟨s₁, hb, h⟩ := Option.bind_eq_some_iff.1 h
      cases ha : again s₁ with
      | true =>
        rw [ha, if_pos rfl] at h
        obtain ⟨k, hk, s, hs, hb', ha'⟩ := ih.1 h
        exact ⟨k + 1, by omega, s, hs.shift hb ha, hb', ha'⟩
      | false =>
        rw [ha, if_neg (by simp)] at h
        cases h
        exact ⟨0, by omega, s₀, .start, hb, ha⟩
    · rintro ⟨k, hk, s, hs, hb, ha⟩
      cases k with
      | zero =>
        cases hs
        simp [doWhile, hb, ha]
      | succ k =>
        obtain ⟨s₁, hb₁, ha₁, hs₁⟩ := hs.cases_succ
        have := ih.2 ⟨k, by omega, s, hs₁, hb, ha⟩
        simp [doWhile, hb₁, ha₁, this]

/-- What the loop returns has the property that the last round establishes. -/
theorem doWhile_post {fuel : ℕ} {s' : σ} {I : ℕ → σ → Prop} {P : σ → Prop}
    (h : doWhile body again fuel s₀ = some s')
    (hI : ∀ {k s}, Entered body again s₀ k s → I k s)
    (hP : ∀ k s s', Entered body again s₀ k s → I k s → body s = some s' → again s' = false →
      P s') : P s' := by
  obtain ⟨k, -, s, hs, hb, ha⟩ := doWhile_eq_some_iff.1 h
  exact hP k s s' hs (hI hs) hb ha

/-- **The termination rule.**  If the body returns in every entered round and no round comes after
round `N`, the loop returns after at most `N + 1` rounds. -/
theorem doWhile_returns {N : ℕ} (hbody : ∀ k s, Entered body again s₀ k s → ∃ s', body s = some s')
    (hN : ∀ k s, Entered body again s₀ k s → k ≤ N) :
    ∃ s', doWhile body again (N + 1) s₀ = some s' := by
  by_contra hno
  push Not at hno
  -- a loop that does not return enters every round
  have hall : ∀ k, k ≤ N + 1 → ∃ s, Entered body again s₀ k s := by
    intro k
    induction k with
    | zero => exact fun _ => ⟨s₀, .start⟩
    | succ k ih =>
      intro hk
      obtain ⟨s, hs⟩ := ih (by omega)
      obtain ⟨s', hb⟩ := hbody k s hs
      cases ha : again s' with
      | true => exact ⟨s', .next hs hb ha⟩
      | false => exact absurd (doWhile_eq_some_iff.2 ⟨k, by omega, s, hs, hb, ha⟩) (hno s')
  obtain ⟨s, hs⟩ := hall (N + 1) le_rfl
  have := hN _ _ hs
  omega

/-- **The rule for `while` loops**, with an invariant and a measure that the rounds lower. -/
theorem whileDo_returns {I : σ → Prop} {μ : σ → ℕ}
    (hstep : ∀ s, I s → again s = true → ∃ s', body s = some s' ∧ I s' ∧ μ s' < μ s)
    {fuel : ℕ} {s : σ} (h : I s) (hfuel : μ s ≤ fuel) :
    ∃ s', whileDo body again fuel s = some s' ∧ I s' ∧ again s' = false := by
  induction fuel generalizing s with
  | zero =>
    cases ha : again s with
    | true =>
      obtain ⟨s', -, -, hlt⟩ := hstep s h ha
      omega
    | false => exact ⟨s, by simp [whileDo, ha], h, ha⟩
  | succ fuel ih =>
    cases ha : again s with
    | true =>
      obtain ⟨s₁, hb, h₁, hlt⟩ := hstep s h ha
      obtain ⟨s', hs', h', ha'⟩ := ih h₁ (by omega)
      refine ⟨s', ?_, h', ha'⟩
      rw [whileDo, if_pos ha, doWhile, hb, Option.bind_some]
      exact hs'
    | false => exact ⟨s, by simp [whileDo, ha], h, ha⟩

/-- A loop that returns within some fuel returns the same with more. -/
theorem doWhile_mono {fuel fuel' : ℕ} {s' : σ} (hle : fuel ≤ fuel')
    (h : doWhile body again fuel s₀ = some s') : doWhile body again fuel' s₀ = some s' := by
  obtain ⟨k, hk, rest⟩ := doWhile_eq_some_iff.1 h
  exact doWhile_eq_some_iff.2 ⟨k, by omega, rest⟩

theorem whileDo_mono {fuel fuel' : ℕ} {s' : σ} (hle : fuel ≤ fuel')
    (h : whileDo body again fuel s₀ = some s') : whileDo body again fuel' s₀ = some s' := by
  rw [whileDo] at h ⊢
  split_ifs at h ⊢ with ha
  · exact doWhile_mono hle h
  · exact h

/-- A loop returns the same with a body that returns more often. -/
theorem doWhile_mono_body {body' : σ → Option σ} {fuel fuel' : ℕ} {s' : σ} (hle : fuel ≤ fuel')
    (hb : ∀ s s', body s = some s' → body' s = some s')
    (h : doWhile body again fuel s₀ = some s') : doWhile body' again fuel' s₀ = some s' := by
  obtain ⟨k, hk, s, hs, hs', ha⟩ := doWhile_eq_some_iff.1 h
  exact doWhile_eq_some_iff.2 ⟨k, by omega, s, hs.mono hb, hb s s' hs', ha⟩

/-- **The rule for two loops.**  Bodies that keep their states related, with tests that agree on
related states, make loops that return related states after the same number of rounds. -/
theorem doWhile_rel {body' : τ → Option τ} {again' : τ → Bool} {R : σ → τ → Prop}
    (hbody : ∀ s t, R s t → Option.Rel R (body s) (body' t))
    (hagain : ∀ s t, R s t → again s = again' t) :
    ∀ (fuel : ℕ) {s : σ} {t : τ}, R s t →
      Option.Rel R (doWhile body again fuel s) (doWhile body' again' fuel t)
  | 0, _, _, _ => .none
  | fuel + 1, s, t, h => by
    have hb := hbody s t h
    unfold doWhile
    cases hs : body s with
    | none =>
      rw [hs] at hb
      cases ht : body' t with
      | none => exact .none
      | some t' => rw [ht] at hb; cases hb
    | some s' =>
      rw [hs] at hb
      cases ht : body' t with
      | none => rw [ht] at hb; cases hb
      | some t' =>
        rw [ht] at hb
        cases hb with
        | some hR =>
          simp only [Option.bind_some, hagain s' t' hR]
          split_ifs
          · exact doWhile_rel hbody hagain fuel hR
          · exact .some hR

/-- The rounds of two loops in step are entered in related states. -/
theorem Entered.rel {body' : τ → Option τ} {again' : τ → Bool} {t₀ : τ} {R : σ → τ → Prop}
    (hbody : ∀ s t, R s t → Option.Rel R (body s) (body' t))
    (hagain : ∀ s t, R s t → again s = again' t) (h0 : R s₀ t₀) {k : ℕ} {s : σ}
    (h : Entered body again s₀ k s) : ∃ t, Entered body' again' t₀ k t ∧ R s t := by
  induction h with
  | start => exact ⟨t₀, .start, h0⟩
  | next hs hb ha ih =>
    obtain ⟨t, ht, hR⟩ := ih
    have hrel := hbody _ _ hR
    rw [hb] at hrel
    cases ht' : body' t with
    | none => rw [ht'] at hrel; cases hrel
    | some t' =>
      rw [ht'] at hrel
      cases hrel with
      | some hR' => exact ⟨t', .next ht ht' (by rw [← hagain _ _ hR', ha]), hR'⟩

theorem optionRel_swap {R : σ → τ → Prop} {a : Option σ} {b : Option τ} (h : Option.Rel R a b) :
    Option.Rel (fun t s => R s t) b a := by
  cases h with
  | some h => exact .some h
  | none => exact .none

/-- Two loops in step have the same number of rounds, and enter them in related states. -/
theorem entered_rel {body' : τ → Option τ} {again' : τ → Bool} {t₀ : τ} {R : σ → τ → Prop}
    (hbody : ∀ s t, R s t → Option.Rel R (body s) (body' t))
    (hagain : ∀ s t, R s t → again s = again' t) (h0 : R s₀ t₀) (k : ℕ) :
    ((∃ s, Entered body again s₀ k s) ↔ ∃ t, Entered body' again' t₀ k t) ∧
      ∀ s t, Entered body again s₀ k s → Entered body' again' t₀ k t → R s t := by
  refine ⟨⟨fun ⟨s, hs⟩ => ?_, fun ⟨t, ht⟩ => ?_⟩, fun s t hs ht => ?_⟩
  · obtain ⟨t, ht, -⟩ := hs.rel hbody hagain h0
    exact ⟨t, ht⟩
  · obtain ⟨s, hs, -⟩ := ht.rel (R := fun t s => R s t) (fun t s h => optionRel_swap (hbody s t h))
      (fun t s h => (hagain s t h).symm) h0
    exact ⟨s, hs⟩
  · obtain ⟨t', ht', h⟩ := hs.rel hbody hagain h0
    rwa [ht.unique ht']

/-! ## Loops that are left early -/

section Early

/-- The rounds before an entered one are entered. -/
theorem Entered.of_le {j k : ℕ} {s : σ} (h : Entered body again s₀ k s) (hj : j ≤ k) :
    ∃ t, Entered body again s₀ j t := by
  induction h with
  | start =>
    obtain rfl : j = 0 := by omega
    exact ⟨_, .start⟩
  | @next k s s' hs hb ha ih =>
    by_cases hjk : j ≤ k
    · exact ih hjk
    · obtain rfl : j = k + 1 := by omega
      exact ⟨s', .next hs hb ha⟩

/-- No round is entered after the last one. -/
theorem Entered.le_last {j k : ℕ} {s s' t : σ} (h : Entered body again s₀ k s) (hb : body s = some s')
    (ha : again s' = false) (ht : Entered body again s₀ j t) : j ≤ k := by
  by_contra hlt
  obtain ⟨u, hu⟩ := ht.of_le (show k + 1 ≤ j by omega)
  cases hu with
  | next hs' hb' ha' =>
    cases hs'.unique h
    cases hb.symm.trans hb'
    rw [ha] at ha'
    cases ha'

/-- A body that lowers a measure lowers it over all rounds. -/
theorem Entered.antitone {μ : σ → ℕ}
    (hμ : ∀ k s s', Entered body again s₀ k s → body s = some s' → μ s' ≤ μ s) {j k : ℕ} {s t : σ}
    (hs : Entered body again s₀ j s) (ht : Entered body again s₀ k t) (hjk : j ≤ k) : μ t ≤ μ s := by
  induction ht with
  | start =>
    obtain rfl : j = 0 := by omega
    rw [hs.unique .start]
  | @next k t t' ht hb ha ih =>
    by_cases hle : j ≤ k
    · exact (hμ k t t' ht hb).trans (ih hle)
    · obtain rfl : j = k + 1 := by omega
      rw [hs.unique (.next ht hb ha)]

/-- The body, with the number of the rounds. -/
def counted (body : σ → Option σ) (p : ℕ × σ) : Option (ℕ × σ) :=
  (body p.2).map fun s => (p.1 + 1, s)

variable {conj : ℕ → σ → Bool}

/-- **A loop with another conjunct**, of whatever value, enters rounds of the loop. -/
theorem Entered.of_counted {k : ℕ} {p : ℕ × σ}
    (h : Entered (counted body) (fun p => again p.2 && conj p.1 p.2) (0, s₀) k p) :
    p.1 = k ∧ Entered body again s₀ k p.2 := by
  induction h with
  | start => exact ⟨rfl, .start⟩
  | @next k p p' _ hb ha ih =>
    obtain ⟨s, hs, rfl⟩ := Option.map_eq_some_iff.1 hb
    rw [Bool.and_eq_true] at ha
    exact ⟨congrArg (· + 1) ih.1, .next ih.2 hs ha.1⟩

/-- It returns after a round of the loop. -/
theorem doWhile_counted {fuel : ℕ} {p : ℕ × σ}
    (h : doWhile (counted body) (fun p => again p.2 && conj p.1 p.2) fuel (0, s₀) = some p) :
    ∃ k < fuel, p.1 = k + 1 ∧ ∃ s, Entered body again s₀ k s ∧ body s = some p.2 := by
  obtain ⟨k, hk, q, hq, hb, -⟩ := doWhile_eq_some_iff.1 h
  obtain ⟨hqk, hs⟩ := hq.of_counted
  obtain ⟨s, hs', rfl⟩ := Option.map_eq_some_iff.1 hb
  exact ⟨k, hk, congrArg (· + 1) hqk, q.2, hs, hs'⟩

/-- A conjunct that reads the state only makes an ordinary loop. -/
theorem doWhile_eq_counted {test : σ → Bool} (fuel : ℕ) :
    doWhile body (fun s => again s && test s) fuel s₀ =
      (doWhile (counted body) (fun p => again p.2 && test p.2) fuel (0, s₀)).map Prod.snd := by
  have hbody : ∀ s (p : ℕ × σ), p.2 = s →
      Option.Rel (fun s (p : ℕ × σ) => p.2 = s) (body s) (counted body p) := by
    intro s p hp
    rw [counted, hp]
    cases body s with
    | none => exact .none
    | some s' => exact .some rfl
  have hagain : ∀ s (p : ℕ × σ), p.2 = s → (again s && test s) = (again p.2 && test p.2) :=
    fun s p hp => by rw [hp]
  have hrel := doWhile_rel hbody hagain fuel (s := s₀) (t := (0, s₀)) rfl
  cases hl : doWhile body (fun s => again s && test s) fuel s₀ with
  | none =>
    rw [hl] at hrel
    cases hr : doWhile (counted body) (fun p => again p.2 && test p.2) fuel (0, s₀) with
    | none => rfl
    | some p => rw [hr] at hrel; cases hrel
  | some s =>
    rw [hl] at hrel
    cases hr : doWhile (counted body) (fun p => again p.2 && test p.2) fuel (0, s₀) with
    | none => rw [hr] at hrel; cases hrel
    | some p =>
      rw [hr] at hrel
      cases hrel with
      | some hp => exact congrArg some hp.symm

end Early

end DoWhile

/-! ## `for` loops -/

namespace ForLoop

variable {σ : Type*} {P : ℕ → σ → Prop} {a b : ℕ} {s : σ}

/-- A loop whose rounds do not fail. -/
theorem foldlM_some {ι : Type*} {f : σ → ι → Option σ} {f' : σ → ι → σ} {l : List ι}
    (h : ∀ i ∈ l, ∀ s, f s i = some (f' s i)) (s : σ) : l.foldlM f s = some (l.foldl f' s) := by
  induction l generalizing s with
  | nil => rfl
  | cons i l ih =>
    rw [List.foldlM_cons, h i (List.mem_cons_self ..), List.foldl_cons]
    exact ih (fun j hj => h j (List.mem_cons_of_mem _ hj)) _

/-- **The rule for a loop upwards.** -/
theorem foldl_Ico {f : σ → ℕ → σ} (hab : a ≤ b) (h0 : P a s)
    (hstep : ∀ i s, a ≤ i → i < b → P i s → P (i + 1) (f s i)) :
    P b ((List.Ico a b).foldl f s) := by
  induction b, hab using Nat.le_induction with
  | base => simpa using h0
  | succ b hab ih =>
    rw [List.Ico.succ_top hab, List.foldl_append]
    exact hstep b _ hab (Nat.lt_succ_self b) (ih fun i s hi hib => hstep i s hi (by omega))

/-- **The rule for a loop downwards.** -/
theorem foldr_Ico {f : ℕ → σ → σ} (hab : a ≤ b) (h0 : P b s)
    (hstep : ∀ i s, a ≤ i → i < b → P (i + 1) s → P i (f i s)) :
    P a ((List.Ico a b).foldr f s) := by
  induction hab using Nat.decreasingInduction with
  | self => simpa using h0
  | of_succ a hab ih =>
    rw [List.Ico.eq_cons hab]
    exact hstep a _ le_rfl hab (ih fun i s hi hib => hstep i s (by omega) hib)

end ForLoop
