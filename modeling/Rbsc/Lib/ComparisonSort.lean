import Mathlib

/-!
# Sorting by comparisons

A program that sorts by a comparator learns from it what it is asked, and nothing else.  Such a
program is a tree of questions, `Comparing`; its comparator may fail (`runM`).

* `runM_eq_some_iff`: a run returns when its comparator answers all questions that are asked;
* `Sorter`: a program that sorts by every strict weak order, and compares items of its list only;
* `Sorter.asks_all`: unless all items are the same, it asks about each of them, whatever the order.
-/

namespace ComparisonSort

variable {α β γ : Type*}

/-- A program that asks a comparator. -/
inductive Comparing (α β : Type*)
  | done (r : β)
  | ask (a b : α) (next : Bool → Comparing α β)

namespace Comparing

/-- The result, with the answers of `lt`. -/
def run (lt : α → α → Bool) : Comparing α β → β
  | done r => r
  | ask a b next => (next (lt a b)).run lt

/-- The questions, with the answers of `lt`. -/
def asked (lt : α → α → Bool) : Comparing α β → List (α × α)
  | done _ => []
  | ask a b next => (a, b) :: (next (lt a b)).asked lt

/-- The run with a comparator that may fail. -/
def runM (lt? : α → α → Option Bool) : Comparing α β → Option β
  | done r => some r
  | ask a b next => (lt? a b).bind fun ans => (next ans).runM lt?

/-- One program after another. -/
def bind (p : Comparing α β) (f : β → Comparing α γ) : Comparing α γ :=
  match p with
  | done r => f r
  | ask a b next => ask a b fun ans => (next ans).bind f

variable {lt lt' : α → α → Bool} {lt? : α → α → Option Bool} {p : Comparing α β}

theorem run_bind (f : β → Comparing α γ) : (p.bind f).run lt = (f (p.run lt)).run lt := by
  induction p with
  | done r => rfl
  | ask a b next ih => exact ih (lt a b)

theorem asked_bind (f : β → Comparing α γ) :
    (p.bind f).asked lt = p.asked lt ++ (f (p.run lt)).asked lt := by
  induction p with
  | done r => rfl
  | ask a b next ih => exact congrArg ((a, b) :: ·) (ih (lt a b))

/-- The result depends on the answers to what is asked only. -/
theorem run_congr (h : ∀ q ∈ p.asked lt, lt' q.1 q.2 = lt q.1 q.2) : p.run lt' = p.run lt := by
  induction p with
  | done r => rfl
  | ask a b next ih =>
    have hab := h (a, b) (List.mem_cons_self ..)
    rw [run, run, hab]
    exact ih _ fun q hq => h q (List.mem_cons_of_mem _ hq)

/-- **When a run returns**, with a comparator that answers as `lt` does or fails. -/
theorem runM_eq_some_iff (h : ∀ a b ans, lt? a b = some ans → lt a b = ans) {r : β} :
    p.runM lt? = some r ↔ p.run lt = r ∧ ∀ q ∈ p.asked lt, lt? q.1 q.2 = some (lt q.1 q.2) := by
  induction p with
  | done r' => simp [runM, run, asked]
  | ask a b next ih =>
    rw [runM, run, asked, List.forall_mem_cons]
    cases hab : lt? a b with
    | none => simp
    | some ans =>
      obtain rfl := h a b ans hab
      rw [Option.bind_some, ih]
      simp

/-! ## Insertion -/

/-- Insertion into a sorted list. -/
def orderedInsert (a : α) : List α → Comparing α (List α)
  | [] => done [a]
  | b :: l => ask b a fun ans =>
      if ans then (orderedInsert a l).bind fun l => done (b :: l) else done (a :: b :: l)

/-- Sorting by insertion. -/
def insertionSort : List α → Comparing α (List α)
  | [] => done []
  | a :: l => (insertionSort l).bind (orderedInsert a)

theorem run_orderedInsert (a : α) (l : List α) :
    (orderedInsert a l).run lt = l.orderedInsert (fun a b => lt b a = false) a := by
  induction l with
  | nil => rfl
  | cons b l ih =>
    rw [orderedInsert, run, List.orderedInsert_cons]
    cases lt b a with
    | false => rfl
    | true =>
      rw [if_pos rfl, run_bind, ih, if_neg (by decide)]
      rfl

theorem run_insertionSort (l : List α) :
    (insertionSort l).run lt = l.insertionSort fun a b => lt b a = false := by
  induction l with
  | nil => rfl
  | cons a l ih => rw [insertionSort, run_bind, ih, run_orderedInsert, List.insertionSort_cons]

theorem asked_orderedInsert {a : α} {l : List α} :
    ∀ q ∈ (orderedInsert a l).asked lt, q.1 ∈ a :: l ∧ q.2 ∈ a :: l := by
  induction l with
  | nil => exact fun q hq => absurd hq List.not_mem_nil
  | cons b l ih =>
    have hsub : a :: l ⊆ a :: b :: l := List.cons_subset_cons a (List.subset_cons_self b l)
    have hrest : ∀ q ∈ (orderedInsert a l).asked lt, q.1 ∈ a :: b :: l ∧ q.2 ∈ a :: b :: l :=
      fun q hq => ⟨hsub (ih q hq).1, hsub (ih q hq).2⟩
    rw [orderedInsert, asked, List.forall_mem_cons]
    refine ⟨by simp, ?_⟩
    cases lt b a with
    | false => exact fun q hq => absurd hq List.not_mem_nil
    | true =>
      rw [if_pos rfl, asked_bind]
      simpa [asked] using hrest

theorem asked_insertionSort {l : List α} :
    ∀ q ∈ (insertionSort l).asked lt, q.1 ∈ l ∧ q.2 ∈ l := by
  induction l with
  | nil => exact fun q hq => absurd hq List.not_mem_nil
  | cons a l ih =>
    intro q hq
    rw [insertionSort, asked_bind, List.mem_append, run_insertionSort] at hq
    rcases hq with hq | hq
    · obtain ⟨h₁, h₂⟩ := ih q hq
      exact ⟨List.mem_cons_of_mem _ h₁, List.mem_cons_of_mem _ h₂⟩
    · obtain ⟨h₁, h₂⟩ := asked_orderedInsert q hq
      rw [List.mem_cons, List.mem_insertionSort] at h₁ h₂
      exact ⟨List.mem_cons.2 h₁, List.mem_cons.2 h₂⟩

end Comparing

/-- A sorting program.  For a strict weak order it rearranges the list, no item comes after one that
it is smaller than, and the comparator is applied to items of the list. -/
structure Sorter (α : Type*) where
  sort : List α → Comparing α (List α)
  perm : ∀ lt [IsStrictWeakOrder α fun a b => lt a b = true] l, ((sort l).run lt).Perm l
  sorted : ∀ lt [IsStrictWeakOrder α fun a b => lt a b = true] l,
    ((sort l).run lt).Pairwise fun a b => lt b a = false
  asks : ∀ lt [IsStrictWeakOrder α fun a b => lt a b = true] l,
    ∀ q ∈ (sort l).asked lt, q.1 ∈ l ∧ q.2 ∈ l

/-! ## Every item is compared -/

/-- The order by rank first. -/
def ranked (c : α → ℤ) (lt : α → α → Bool) (a b : α) : Bool := c a < c b || (c a = c b && lt a b)

theorem ranked_iff {c : α → ℤ} {lt : α → α → Bool} {a b : α} :
    ranked c lt a b = true ↔ c a < c b ∨ c a = c b ∧ lt a b = true := by
  simp [ranked]

instance ranked_strictWeakOrder (c : α → ℤ) (lt : α → α → Bool)
    [hlt : IsStrictWeakOrder α fun a b => lt a b = true] :
    IsStrictWeakOrder α fun a b => ranked c lt a b = true where
  irrefl a h := by
    rcases ranked_iff.1 h with h | ⟨-, h⟩
    · exact lt_irrefl _ h
    · exact hlt.irrefl a h
  trans a b d hab hbd := by
    rw [ranked_iff] at *
    rcases hab with hab | ⟨hab, hab'⟩
    · rcases hbd with hbd | ⟨hbd, -⟩
      · exact Or.inl (hab.trans hbd)
      · exact Or.inl (hbd ▸ hab)
    · rcases hbd with hbd | ⟨hbd, hbd'⟩
      · exact Or.inl (hab ▸ hbd)
      · exact Or.inr ⟨hab.trans hbd, hlt.trans a b d hab' hbd'⟩
  incomp_trans a b d hab hbd := by
    have hsame : ∀ x y, ¬ ranked c lt x y = true ∧ ¬ ranked c lt y x = true →
        c x = c y ∧ ¬ lt x y = true ∧ ¬ lt y x = true := by
      rintro x y ⟨hxy, hyx⟩
      rw [ranked_iff, not_or, not_lt, not_and] at hxy hyx
      have heq : c x = c y := le_antisymm hyx.1 hxy.1
      exact ⟨heq, hxy.2 heq, hyx.2 heq.symm⟩
    obtain ⟨hab, hab'⟩ := hsame a b hab
    obtain ⟨hbd, hbd'⟩ := hsame b d hbd
    obtain ⟨had, hda⟩ := hlt.incomp_trans a b d hab' hbd'
    have heq := hab.trans hbd
    constructor
    · rw [ranked_iff]
      rintro (h | ⟨-, h⟩)
      · exact h.ne heq
      · exact had h
    · rw [ranked_iff]
      rintro (h | ⟨-, h⟩)
      · exact h.ne heq.symm
      · exact hda h

/-- **Every item is compared.**  One that nothing is asked about could be first or last. -/
theorem Sorter.asks_all (srt : Sorter α) (lt : α → α → Bool)
    [IsStrictWeakOrder α fun a b => lt a b = true] {l : List α} {x y : α} (hx : x ∈ l) (hy : y ∈ l)
    (hxy : x ≠ y) : ∃ q ∈ (srt.sort l).asked lt, q.1 = x ∨ q.2 = x := by
  classical
  by_contra hno
  push Not at hno
  -- wherever it stands, the result is the same
  have hsame : ∀ k : ℤ, (srt.sort l).run (ranked (fun a => if a = x then k else 0) lt) =
      (srt.sort l).run lt := fun k => Comparing.run_congr fun q hq => by
    obtain ⟨h₁, h₂⟩ := hno q hq
    simp [ranked, h₁, h₂]
  have hsorted : ∀ k : ℤ, ((srt.sort l).run lt).Pairwise fun a b =>
      ranked (fun a => if a = x then k else 0) lt b a = false := fun k => by
    rw [← hsame k]
    exact srt.sorted _ l
  have hperm := srt.perm lt l
  generalize (srt.sort l).run lt = r at hsorted hperm
  obtain ⟨s, t, rfl⟩ := List.append_of_mem (hperm.mem_iff.2 hx)
  rcases List.mem_append.1 (hperm.mem_iff.2 hy) with hys | hyt
  · -- it comes after `y`, and could be first
    have := (List.pairwise_append.1 (hsorted (-1))).2.2 y hys x (List.mem_cons_self ..)
    simp [ranked, hxy.symm] at this
  · have hyt : y ∈ t := (List.mem_cons.1 hyt).resolve_left hxy.symm
    have := List.rel_of_pairwise_cons (List.pairwise_append.1 (hsorted 1)).2.1 hyt
    simp [ranked, hxy.symm] at this

end ComparisonSort
