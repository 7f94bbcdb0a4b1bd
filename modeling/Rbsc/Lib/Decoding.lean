import Mathlib

/-!
# Decoders

A decoder hands out numbers, each when it is asked for one of a kind; it fails when it has none.

* `Supplies read l s s'`: asked for the kinds of `l` one after the other, the decoder in state `s`
  answers with the numbers of `l` and is in state `s'` then;
* `Reads read m l a`: the program `m` asks for the kinds of `l` and, with the numbers of `l` as the
  answers, returns `a`; one rule for each way to build a program;
* `Yields next l s`: an iterator that gives the items of `l` and then ends.
-/

namespace Decoding

variable {κ σ α β : Type}

/-- The decoder answers with the numbers of the list. -/
def Supplies (read : κ → StateT σ Option ℕ) : List (κ × ℕ) → σ → σ → Prop
  | [], s, s' => s = s'
  | (k, n) :: l, s, s' => ∃ s₁, read k s = some (n, s₁) ∧ Supplies read l s₁ s'

section

variable {read : κ → StateT σ Option ℕ} {l l' : List (κ × ℕ)} {s s' s₁ : σ}

theorem supplies_nil : Supplies read [] s s' ↔ s = s' := Iff.rfl

theorem supplies_append :
    Supplies read (l ++ l') s s' ↔ ∃ s₁, Supplies read l s s₁ ∧ Supplies read l' s₁ s' := by
  induction l generalizing s with
  | nil => simp [Supplies]
  | cons c l ih =>
    obtain ⟨k, n⟩ := c
    simp only [List.cons_append, Supplies, ih]
    constructor
    · rintro ⟨t, ht, t', h, h'⟩
      exact ⟨t', ⟨t, ht, h⟩, h'⟩
    · rintro ⟨t', ⟨t, ht, h⟩, h'⟩
      exact ⟨t, ht, t', h, h'⟩

end

/-- The program reads the numbers of `l` and returns `a`. -/
def Reads (read : κ → StateT σ Option ℕ) (m : StateT σ Option α) (l : List (κ × ℕ)) (a : α) :
    Prop :=
  ∀ s s', Supplies read l s s' → m s = some (a, s')

namespace Reads

variable {read : κ → StateT σ Option ℕ} {l l' : List (κ × ℕ)} {m : StateT σ Option α}
  {f : α → StateT σ Option β} {a : α} {b : β}

theorem pure (a : α) : Reads read (Pure.pure a) [] a := by
  intro s s' h
  rw [supplies_nil.1 h]
  rfl

theorem bind (h : Reads read m l a) (h' : Reads read (f a) l' b) :
    Reads read (m >>= f) (l ++ l') b := by
  intro s s' hs
  obtain ⟨s₁, h₁, h₂⟩ := supplies_append.1 hs
  have hm := h s s₁ h₁
  have hf := h' s₁ s' h₂
  change (m s).bind (fun p => f p.1 p.2) = _
  rw [hm]
  exact hf

/-- A question of the program itself. -/
theorem ask {k : κ} {n : ℕ} {f : ℕ → StateT σ Option β} (h : Reads read (f n) l b) :
    Reads read (read k >>= f) ((k, n) :: l) b := by
  rintro s s' ⟨s₁, hk, hs⟩
  have hf := h s₁ s' hs
  change (read k s).bind (fun p => f p.1 p.2) = _
  rw [hk]
  exact hf

/-- A step that asks for nothing. -/
theorem bind_pure (h : Reads read (f a) l b) : Reads read (Pure.pure a >>= f) l b :=
  (Reads.pure a).bind h

/-- A program that may fail, and does not here. -/
theorem lift {o : Option α} (ho : o = some a) :
    Reads read (StateT.lift o : StateT σ Option α) [] a := by
  subst ho
  exact Reads.pure a

/-- A step that may fail, and does not here. -/
theorem bind_lift {o : Option α} (ho : o = some a) (h : Reads read (f a) l b) :
    Reads read ((StateT.lift o : StateT σ Option α) >>= f) l b := by
  subst ho
  exact bind_pure h

theorem map (h : Reads read m l a) (g : α → β) :
    Reads read (m >>= fun x => Pure.pure (g x)) l (g a) := by
  have hg : Reads read (Pure.pure (g a)) [] (g a) := Reads.pure (g a)
  have := h.bind hg (f := fun x => Pure.pure (g x))
  rwa [List.append_nil] at this

theorem congr (h : Reads read m l a) (hl : l = l') : Reads read m l' a := hl ▸ h

end Reads

/-! ### Iterators -/

section

variable {ι ι' : Type}

/-- The iterator gives the items of the list and is in state `s'` then; the outer `Option` of
`next` is a failure. -/
def Gives (next : ι → Option (Option α × ι)) : List α → ι → ι → Prop
  | [], s, s' => s = s'
  | a :: l, s, s' => ∃ s₁, next s = some (some a, s₁) ∧ Gives next l s₁ s'

/-- The iterator gives the items of the list and then ends. -/
def Yields (next : ι → Option (Option α × ι)) (l : List α) (s : ι) : Prop :=
  ∃ s', Gives next l s s' ∧ ∃ t, next s' = some (none, t)

/-- `for`, with the items in a list; `fuel` bounds their number. -/
def collect (next : ι → Option (Option α × ι)) : ℕ → ι → Option (List α)
  | 0, _ => none
  | fuel + 1, s => do
    let (a, s) ← next s
    match a with
    | none => some []
    | some a => (collect next fuel s).map (a :: ·)

/-- `take(n)`, with the items in a list. -/
def takeItems (next : ι → Option (Option α × ι)) : ℕ → ι → Option (List α)
  | 0, _ => some []
  | n + 1, s => do
    let (a, s) ← next s
    match a with
    | none => some []
    | some a => (takeItems next n s).map (a :: ·)

/-- `advance_by(n)`; the inner `none` says that the iterator ends before. -/
def advanceBy (next : ι → Option (Option α × ι)) : ℕ → ι → Option (Option ι)
  | 0, s => some (some s)
  | n + 1, s => do
    let (a, s) ← next s
    match a with
    | none => some none
    | some _ => advanceBy next n s

variable {next : ι → Option (Option α × ι)} {l : List α} {s s₁ : ι} {a : α}

theorem Yields.nil {t : ι} (h : next s = some (none, t)) : Yields next [] s := ⟨s, rfl, t, h⟩

theorem Yields.cons (h : next s = some (some a, s₁)) (hl : Yields next l s₁) :
    Yields next (a :: l) s := by
  obtain ⟨s', hg, hend⟩ := hl
  exact ⟨s', ⟨s₁, h, hg⟩, hend⟩

theorem yields_cons : Yields next (a :: l) s ↔
    ∃ s₁, next s = some (some a, s₁) ∧ Yields next l s₁ := by
  refine ⟨?_, fun ⟨s₁, h, hl⟩ => hl.cons h⟩
  rintro ⟨s', ⟨s₁, h, hg⟩, hend⟩
  exact ⟨s₁, h, s', hg, hend⟩

theorem Yields.collect (h : Yields next l s) {fuel : ℕ} (hf : l.length < fuel) :
    collect next fuel s = some l := by
  induction l generalizing s fuel with
  | nil =>
    obtain ⟨_, rfl, t, ht⟩ := h
    obtain ⟨fuel, rfl⟩ : ∃ k, fuel = k + 1 := ⟨fuel - 1, by simp at hf; omega⟩
    simp [Decoding.collect, ht]
  | cons a l ih =>
    obtain ⟨s₁, hs, hl⟩ := yields_cons.1 h
    rw [List.length_cons] at hf
    obtain ⟨fuel, rfl⟩ : ∃ k, fuel = k + 1 := ⟨fuel - 1, by omega⟩
    simp [Decoding.collect, hs, ih hl (show l.length < fuel by omega)]

theorem Yields.takeItems (h : Yields next l s) (n : ℕ) : takeItems next n s = some (l.take n) := by
  induction n generalizing l s with
  | zero => rfl
  | succ n ih =>
    cases l with
    | nil =>
      obtain ⟨_, rfl, t, ht⟩ := h
      simp [Decoding.takeItems, ht]
    | cons a l =>
      obtain ⟨s₁, hs, hl⟩ := yields_cons.1 h
      simp [Decoding.takeItems, hs, ih hl]

theorem Yields.advanceBy (h : Yields next l s) {n : ℕ} (hn : n ≤ l.length) :
    ∃ s', advanceBy next n s = some (some s') ∧ Yields next (l.drop n) s' := by
  induction n generalizing l s with
  | zero => exact ⟨s, rfl, h⟩
  | succ n ih =>
    obtain ⟨a, l, rfl⟩ := List.exists_cons_of_length_pos (Nat.zero_lt_of_lt hn)
    obtain ⟨s₁, hs, hl⟩ := yields_cons.1 h
    obtain ⟨s', hadvance, hdrop⟩ := ih hl (by simpa using hn)
    exact ⟨s', by simp [Decoding.advanceBy, hs, hadvance], hdrop⟩

theorem Yields.advanceBy_none (h : Yields next l s) {n : ℕ} (hn : l.length < n) :
    Decoding.advanceBy next n s = some none := by
  induction n generalizing l s with
  | zero => omega
  | succ n ih =>
    cases l with
    | nil =>
      obtain ⟨_, rfl, t, ht⟩ := h
      simp [Decoding.advanceBy, ht]
    | cons a l =>
      obtain ⟨s₁, hs, hl⟩ := yields_cons.1 h
      simp [Decoding.advanceBy, hs, ih hl (by simpa using hn)]

end

end Decoding
