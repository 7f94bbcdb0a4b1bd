import Rbsc.PartRef.Model

/-!
# The transitions of a state

`make_adjacent_tr_set` sorts the transitions by their states with a counting sort:
`make_adjacent_tr_set_of` says that every state gets its own ones, in the order of the input.
-/

namespace Rbsc.PartRef

open Arrays ForLoop

variable {n m : ℕ} {ts : ℕ → ℕ}

/-- The transitions of `st` with numbers below `tr`. -/
def trsOf (ts : ℕ → ℕ) (st tr : ℕ) : List ℕ := (List.Ico 1 tr).filter fun t => ts t = st

theorem trsOf_succ {tr : ℕ} (htr : 1 ≤ tr) (st : ℕ) :
    trsOf ts st (tr + 1) = trsOf ts st tr ++ if ts tr = st then [tr] else [] := by
  unfold trsOf
  rw [List.Ico.succ_top htr, List.filter_append]
  congr 1
  split_ifs with h <;> simp [h]

theorem length_trsOf_mono (ts : ℕ → ℕ) {tr tr' : ℕ} (htr : 1 ≤ tr) (h : tr ≤ tr') (st : ℕ) :
    (trsOf ts st tr).length ≤ (trsOf ts st tr').length := by
  induction tr', h using Nat.le_induction with
  | base => exact le_rfl
  | succ tr' h ih =>
    rw [trsOf_succ (htr.trans h), List.length_append]
    omega

theorem count_tr_apply {st : ℕ} (hst : st ≤ n) (a : Arr ℕ) :
    count_tr n m ts a st = (trsOf ts st (m + 1)).length := by
  refine foldl_Ico (P := fun tr (e : Arr ℕ) => e st = (trsOf ts st tr).length)
    (f := fun e tr => e.set (ts tr) (e (ts tr) + 1)) (by omega) ?_ fun tr e htr _ ih => ?_
  · rw [fill_of_lt _ _ (by omega)]
    simp [trsOf]
  · rw [trsOf_succ htr, List.length_append, Arr.set_apply]
    by_cases h : ts tr = st
    · rw [if_pos h.symm, if_pos h, h, ih]
      rfl
    · rw [if_neg (Ne.symm h), if_neg h, ih]
      rfl

/-- The place of the first transition of a state. -/
def firstPlace (m : ℕ) (ts : ℕ → ℕ) (st : ℕ) : ℕ :=
  ∑ s ∈ Finset.range st, (trsOf ts s (m + 1)).length

theorem firstPlace_succ (m : ℕ) (ts : ℕ → ℕ) (st : ℕ) :
    firstPlace m ts (st + 1) = firstPlace m ts st + (trsOf ts st (m + 1)).length :=
  Finset.sum_range_succ _ _

theorem firstPlace_mono (m : ℕ) (ts : ℕ → ℕ) {s st : ℕ} (h : s ≤ st) :
    firstPlace m ts s ≤ firstPlace m ts st :=
  Finset.sum_le_sum_of_subset (Finset.range_subset_range.2 h)

theorem first_places_apply {e : Arr ℕ} (he : ∀ st ≤ n, e st = (trsOf ts st (m + 1)).length) {st : ℕ}
    (hst : st ≤ n) : (first_places n e).2 st = firstPlace m ts st := by
  unfold first_places
  rw [← List.Ico.zero_bot]
  have hloop := foldl_Ico (P := fun k (p : ℕ × Arr ℕ) => p.1 = firstPlace m ts k ∧
      (∀ s < k, p.2 s = firstPlace m ts s) ∧ ∀ s, k ≤ s → s ≤ n → p.2 s = e s)
    (f := fun p st => (p.1 + p.2 st, p.2.set st p.1)) (a := 0) (b := n + 1) (s := (0, e))
    (by omega) ⟨rfl, fun s hs => absurd hs (Nat.not_lt_zero s), fun _ _ _ => rfl⟩ ?_
  · exact hloop.2.1 st (by omega)
  · rintro k p - hk ⟨hsum, hbelow, habove⟩
    refine ⟨?_, fun s hs => ?_, fun s hs hsn => ?_⟩
    · rw [firstPlace_succ, hsum, habove k le_rfl (by omega), he k (by omega)]
    · by_cases hsk : s = k
      · rw [hsk, Arr.set_self, hsum]
      · rw [Arr.set_of_ne _ _ hsk, hbelow s (by omega)]
    · rw [Arr.set_of_ne _ _ (by omega), habove s (by omega) hsn]

/-- Before transition `tr` the earlier ones stand at their places. -/
structure Placed (n m : ℕ) (ts : ℕ → ℕ) (tr : ℕ) (a : Adjacent) : Prop where
  ends : ∀ s ≤ n, a.ends s = firstPlace m ts s + (trsOf ts s tr).length
  trans : ∀ s ≤ n, ∀ k < (trsOf ts s tr).length,
    (trsOf ts s tr)[k]? = some (a.trans (firstPlace m ts s + k))

theorem Placed.next {tr : ℕ} {a : Adjacent} (h : Placed n m ts tr a) (htr : 1 ≤ tr) (htrm : tr ≤ m)
    (hst : ts tr ≤ n) : Placed n m ts (tr + 1) (place_tr ts a tr) := by
  have hends := h.ends (ts tr) hst
  have hown : (trsOf ts (ts tr) (tr + 1)).length = (trsOf ts (ts tr) tr).length + 1 := by
    rw [trsOf_succ htr, if_pos rfl, List.length_append, List.length_singleton]
  -- the new place lies in the segment of its state
  have hfit := length_trsOf_mono ts (by omega) (show tr + 1 ≤ m + 1 by omega) (ts tr)
  have hfirst := firstPlace_succ m ts (ts tr)
  constructor
  · intro s hs
    unfold place_tr
    dsimp only
    by_cases hsr : s = ts tr
    · rw [hsr, Arr.set_self, hends, hown]
      omega
    · rw [Arr.set_of_ne _ _ hsr, h.ends s hs, trsOf_succ htr, if_neg (Ne.symm hsr),
        List.append_nil]
  · intro s hs k hk
    unfold place_tr
    dsimp only
    rw [hends]
    by_cases hsr : s = ts tr
    · subst hsr
      rw [trsOf_succ htr, if_pos rfl]
      by_cases hkl : k = (trsOf ts (ts tr) tr).length
      · rw [hkl, Arr.set_self, List.getElem?_concat_length]
      · rw [hown] at hk
        have hkl' : k < (trsOf ts (ts tr) tr).length := by omega
        rw [Arr.set_of_ne _ _ (by omega), List.getElem?_append_left hkl', h.trans _ hs k hkl']
    · rw [trsOf_succ htr, if_neg (Ne.symm hsr), List.append_nil] at hk ⊢
      have hfit' := length_trsOf_mono ts htr (show tr ≤ m + 1 by omega) s
      have hfirst' := firstPlace_succ m ts s
      have hne : firstPlace m ts s + k ≠
          firstPlace m ts (ts tr) + (trsOf ts (ts tr) tr).length := by
        rcases lt_or_gt_of_ne hsr with hlt | hlt
        · have := firstPlace_mono m ts (show s + 1 ≤ ts tr from hlt)
          omega
        · have := firstPlace_mono m ts (show ts tr + 1 ≤ s from hlt)
          omega
      rw [Arr.set_of_ne _ _ hne, h.trans s hs k hk]

/-- **Every state gets its transitions.** -/
theorem make_adjacent_tr_set_of (hts : ∀ tr, 1 ≤ tr → tr ≤ m → ts tr ≤ n) {st : ℕ} (h1 : 1 ≤ st)
    (hn : st ≤ n) : (make_adjacent_tr_set n m ts).of st = trsOf ts st (m + 1) := by
  have hplaced : Placed n m ts (m + 1) (make_adjacent_tr_set n m ts) := by
    refine foldl_Ico (P := Placed n m ts) (by omega) ⟨fun s hs => ?_, fun s _ k hk => ?_⟩
      fun tr a htr htrm h => h.next htr (by omega) (hts tr htr (by omega))
    · rw [first_places_apply (fun st hst => count_tr_apply hst _) hs]
      simp [trsOf]
    · simp [trsOf] at hk
  generalize make_adjacent_tr_set n m ts = a at hplaced
  have hlo : a.ends (st - 1) = firstPlace m ts st := by
    rw [hplaced.ends _ (by omega), ← firstPlace_succ, Nat.sub_add_cancel h1]
  have hhi := hplaced.ends st hn
  unfold Adjacent.of
  rw [hlo, hhi]
  refine List.ext_getElem? fun k => ?_
  by_cases hk : k < (trsOf ts st (m + 1)).length
  · rw [hplaced.trans st hn k hk, List.getElem?_map, List.Ico, List.getElem?_range' (by omega)]
    simp
  · rw [List.getElem?_eq_none (by simp; omega), List.getElem?_eq_none (by omega)]

end Rbsc.PartRef
