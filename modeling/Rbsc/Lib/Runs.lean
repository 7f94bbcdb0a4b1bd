import Mathlib

/-!
# Runs of equal keys

A list of keyed values is reduced run by run: every maximal run of equal neighbouring keys becomes
one pair of the key and the sum of its values.  When the items of every key stand together, there is
one run for a key, and its sum is that of all values of the key (`runSums_spec`).

* `runSums`: the reduction;
* `Consecutive`: the items of every key stand together;
* `runCount`: the number of runs, counted at the places where the key changes (`length_runSums`).
-/

namespace Runs

variable {κ M : Type*} [DecidableEq κ] [AddMonoid M]

/-- The key and the sum of every run of equal keys. -/
def runSums : List (κ × M) → List (κ × M)
  | [] => []
  | (k, x) :: l =>
    match runSums l with
    | [] => [(k, x)]
    | (k', y) :: r => if k = k' then (k, x + y) :: r else (k, x) :: (k', y) :: r

/-- The items of every key stand together. -/
def Consecutive : List κ → Prop
  | [] => True
  | k :: l => Consecutive l ∧ (k ∈ l → l.head? = some k)

/-- The sum of the values of a key. -/
def keySum (l : List (κ × M)) (k : κ) : M := ((l.filter fun p => p.1 = k).map Prod.snd).sum

theorem keySum_cons (k' : κ) (x : M) (l : List (κ × M)) (k : κ) :
    keySum ((k', x) :: l) k = (if k' = k then x else 0) + keySum l k := by
  unfold keySum
  by_cases h : k' = k <;> simp [h]

theorem keySum_eq_zero {l : List (κ × M)} {k : κ} (h : k ∉ l.map Prod.fst) : keySum l k = 0 := by
  have : (l.filter fun p => p.1 = k) = [] := List.filter_eq_nil_iff.2 fun p hp hk =>
    h (List.mem_map.2 ⟨p, hp, of_decide_eq_true hk⟩)
  rw [keySum, this]
  rfl

/-- The runs start as the list does. -/
theorem head?_runSums (l : List (κ × M)) :
    ((runSums l).map Prod.fst).head? = (l.map Prod.fst).head? := by
  cases l with
  | nil => rfl
  | cons p l =>
    obtain ⟨k, x⟩ := p
    rw [runSums]
    cases runSums l with
    | nil => rfl
    | cons q r =>
      obtain ⟨k', y⟩ := q
      dsimp only
      split_ifs <;> simp

theorem mem_runSums_keys (l : List (κ × M)) (k : κ) :
    k ∈ (runSums l).map Prod.fst ↔ k ∈ l.map Prod.fst := by
  induction l with
  | nil => simp [runSums]
  | cons p l ih =>
    obtain ⟨k₀, x⟩ := p
    rw [List.map_cons, List.mem_cons, ← ih, runSums]
    cases hr : runSums l with
    | nil => simp
    | cons q r =>
      obtain ⟨k', y⟩ := q
      dsimp only
      split_ifs with hk
      · subst hk; simp
      · simp

/-- **One run for a key.**  When the items of every key stand together, the keys of the runs are
distinct and each stands with the sum of all its values. -/
theorem runSums_spec {l : List (κ × M)} (h : Consecutive (l.map Prod.fst)) :
    ((runSums l).map Prod.fst).Nodup ∧ ∀ p ∈ runSums l, p.2 = keySum l p.1 := by
  induction l with
  | nil => simp [runSums]
  | cons p l ih =>
    obtain ⟨k, x⟩ := p
    obtain ⟨hl, hk⟩ := h
    obtain ⟨hnd, hsum⟩ := ih hl
    have hmem := mem_runSums_keys l k
    have hhead := head?_runSums l
    rw [runSums]
    cases hr : runSums l with
    | nil =>
      have hno : k ∉ l.map Prod.fst := by rw [← hmem, hr]; simp
      refine ⟨by simp, fun q hq => ?_⟩
      rw [List.mem_singleton.1 hq, keySum_cons, if_pos rfl, keySum_eq_zero hno, add_zero]
    | cons q r =>
      obtain ⟨k', y⟩ := q
      rw [hr] at hnd hsum hmem hhead
      dsimp only
      rw [List.map_cons] at hnd
      obtain ⟨hk'r, hndr⟩ := List.nodup_cons.1 hnd
      split_ifs with hkk
      · -- the first item joins the first run
        subst hkk
        have hy : y = keySum l k := hsum (k, y) (List.mem_cons_self ..)
        refine ⟨hnd, fun q hq => ?_⟩
        rcases List.mem_cons.1 hq with rfl | hq
        · rw [keySum_cons, if_pos rfl, ← hy]
        · have hne : k ≠ q.1 := fun h => hk'r (List.mem_map.2 ⟨q, hq, h.symm⟩)
          rw [keySum_cons, if_neg hne, zero_add]
          exact hsum q (List.mem_cons_of_mem _ hq)
      · -- the first item is a run of its own: its key does not come back
        have hno : k ∉ l.map Prod.fst := fun hin => by
          have := hk hin
          rw [← hhead] at this
          exact hkk (by simpa using this.symm)
        have hno' : k ∉ ((k', y) :: r).map Prod.fst := fun hin => hno (hmem.1 hin)
        refine ⟨List.nodup_cons.2 ⟨hno', hnd⟩, fun q hq => ?_⟩
        rcases List.mem_cons.1 hq with rfl | hq
        · rw [keySum_cons, if_pos rfl, keySum_eq_zero hno, add_zero]
        · have hne : k ≠ q.1 := fun h => hno' (by rw [h]; exact List.mem_map_of_mem hq)
          rw [keySum_cons, if_neg hne, zero_add]
          exact hsum q hq

/-! ## Counting runs -/

/-- The number of places at which a run starts. -/
def runCount (l : List κ) : ℕ :=
  (List.range l.length).countP fun i => i = 0 ∨ l[i]? ≠ l[i - 1]?

theorem runCount_cons (k : κ) (l : List κ) :
    runCount (k :: l) = runCount l + if l.head? = some k then 0 else 1 := by
  cases l with
  | nil => simp [runCount]
  | cons k' l =>
    have hshift : ∀ i, (k :: k' :: l)[i + 1 + 1]? = (k' :: l)[i + 1]? ∧
        (k :: k' :: l)[i + 1]? = (k' :: l)[i]? := fun i => ⟨rfl, rfl⟩
    simp only [runCount, List.length_cons, List.range_succ_eq_map, List.countP_cons,
      List.countP_map, List.map_cons, List.map_map]
    simp only [Function.comp_def, Nat.succ_eq_add_one]
    by_cases hk : k' = k
    · subst hk; simp
    · simp [hk]

theorem length_runSums (l : List (κ × M)) : (runSums l).length = runCount (l.map Prod.fst) := by
  induction l with
  | nil => rfl
  | cons p l ih =>
    obtain ⟨k, x⟩ := p
    rw [List.map_cons, runCount_cons, ← ih, ← head?_runSums, runSums]
    cases hr : runSums l with
    | nil => simp
    | cons q r =>
      obtain ⟨k', y⟩ := q
      dsimp only
      by_cases hk : k = k'
      · subst hk; simp
      · simp [hk, Ne.symm hk]

end Runs
