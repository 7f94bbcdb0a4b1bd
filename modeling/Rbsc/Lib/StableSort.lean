import Mathlib

/-!
# Stable sorts

A stable sort rearranges a list by increasing key and keeps the order of the items of one key.
Sorting a list that is already in some order `S` leaves the items of one key in that order, so two
stable passes sort by the pair of keys (`IsStableSort.lex`), as in a radix sort that starts with the
less significant key.
-/

namespace StableSort

variable {α κ : Type*} [LinearOrder κ] {key : α → κ} {l l' : List α}

/-- `l'` is `l` stably sorted by `key`. -/
structure IsStableSort (key : α → κ) (l l' : List α) : Prop where
  /-- It has the same items. -/
  perm : l'.Perm l
  /-- The keys increase. -/
  sorted : l'.Pairwise fun a b => key a ≤ key b
  /-- The items of one key stay in their order. -/
  stable : ∀ k, (l'.filter fun a => key a = k) = l.filter fun a => key a = k

/-- **A stable pass over an ordered list sorts by the pair.** -/
theorem IsStableSort.lex (h : IsStableSort key l l') {S : α → α → Prop} (hS : l.Pairwise S) :
    l'.Pairwise fun a b => key a < key b ∨ key a = key b ∧ S a b := by
  rw [List.pairwise_iff_forall_sublist]
  intro a b hab
  have hle := List.pairwise_iff_forall_sublist.1 h.sorted hab
  rcases hle.lt_or_eq with hlt | heq
  · exact Or.inl hlt
  · refine Or.inr ⟨heq, ?_⟩
    -- `a` and `b` have one key, so they stand in this order in `l` as well
    have hf := hab.filter fun x => decide (key x = key b)
    rw [h.stable (key b)] at hf
    simp only [List.filter_cons, heq, decide_true, if_true, List.filter_nil] at hf
    exact List.pairwise_iff_forall_sublist.1 hS (hf.trans List.filter_sublist)

/-- The keys of an ordered list stay as they are. -/
theorem IsStableSort.map_key_eq (h : IsStableSort key l l')
    (hl : l.Pairwise fun a b => key a ≤ key b) : l'.map key = l.map key :=
  (h.perm.map key).eq_of_pairwise (fun _ _ _ _ => le_antisymm)
    (List.pairwise_map.2 h.sorted) (List.pairwise_map.2 hl)

theorem filter_orderedInsert (key : α → κ) (k : κ) (a : α) :
    ∀ l : List α, l.Pairwise (fun a b => key a ≤ key b) →
      ((l.orderedInsert (fun a b => key a ≤ key b) a).filter fun a => key a = k) =
        (a :: l).filter fun a => key a = k
  | [], _ => by simp
  | b :: l, h => by
    rw [List.orderedInsert_cons]
    split_ifs with hab
    · rfl
    · obtain ⟨hb, hl⟩ := List.pairwise_cons.1 h
      have ih := filter_orderedInsert key k a l hl
      have hba : key b < key a := not_le.1 hab
      rw [List.filter_cons, ih]
      by_cases hak : key a = k
      · have hbk : key b ≠ k := fun h => absurd hba (by rw [h, hak]; exact lt_irrefl _)
        simp [hak, hbk]
      · by_cases hbk : key b = k <;> simp [hak, hbk]

/-- Insertion sort is a stable sort. -/
theorem isStableSort_insertionSort (key : α → κ) (l : List α) :
    IsStableSort key l (l.insertionSort fun a b => key a ≤ key b) := by
  have htot : Std.Total fun a b : α => key a ≤ key b := ⟨fun a b => le_total _ _⟩
  have htr : IsTrans α fun a b => key a ≤ key b := ⟨fun _ _ _ => le_trans⟩
  have hsort : ∀ l : List α, (l.insertionSort fun a b => key a ≤ key b).Pairwise
      fun a b => key a ≤ key b := fun l => List.pairwise_insertionSort _ l
  refine ⟨List.perm_insertionSort _ l, hsort l, fun k => ?_⟩
  induction l with
  | nil => rfl
  | cons a l ih =>
    rw [List.insertionSort_cons, filter_orderedInsert key k a _ (hsort l)]
    simp only [List.filter_cons, ih]

end StableSort
