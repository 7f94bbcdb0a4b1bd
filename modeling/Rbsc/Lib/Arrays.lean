import Mathlib

/-!
# Arrays

An array is read at an index and written at an index; how many of its entries are meant is up to
the program that uses it.

* `Arr.set`: one write;
* `scatter n idx val a`: the loop `for i < n do a[idx[i]] := val[i]`;
* `fill n f a`: the loop `for i < n do a[i] := f i`;
* `store l a`: the first entries overwritten by a list;
* `Arr.read`, `Arr.write`: accesses of an array whose size is known;
* `IsPerm n σ`: `σ` permutes the indices below `n`; a scatter along `σ` puts `val i` at `σ i`
  (`scatter_perm`).
-/

namespace Arrays

/-- An array of unbounded length. -/
@[ext] structure Arr (α : Type*) where
  get : ℕ → α

variable {α : Type*}

instance : CoeFun (Arr α) fun _ => ℕ → α := ⟨Arr.get⟩

/-- `a[i] := x`. -/
def Arr.set (a : Arr α) (i : ℕ) (x : α) : Arr α := ⟨Function.update a.get i x⟩

/-- The array with one value everywhere. -/
def Arr.const (x : α) : Arr α := ⟨fun _ => x⟩

@[simp] theorem Arr.const_apply (x : α) (i : ℕ) : Arr.const x i = x := rfl

theorem Arr.set_apply (a : Arr α) (i : ℕ) (x : α) (j : ℕ) :
    a.set i x j = if j = i then x else a j := Function.update_apply a.get i x j

@[simp] theorem Arr.set_self (a : Arr α) (i : ℕ) (x : α) : a.set i x i = x := by
  rw [Arr.set_apply, if_pos rfl]

theorem Arr.set_of_ne (a : Arr α) {i j : ℕ} (x : α) (h : j ≠ i) : a.set i x j = a j := by
  rw [Arr.set_apply, if_neg h]

/-- A second write to one place. -/
@[simp] theorem Arr.set_set (a : Arr α) (i : ℕ) (x y : α) : (a.set i x).set i y = a.set i y :=
  Arr.ext (Function.update_idem ..)

/-- A write of what is there. -/
@[simp] theorem Arr.set_get (a : Arr α) (i : ℕ) : a.set i (a i) = a :=
  Arr.ext (Function.update_eq_self ..)

/-- One value at all places of a list. -/
theorem Arr.foldl_set_const {l : List ℕ} (a : Arr α) (x : α) (i : ℕ) :
    l.foldl (fun (a : Arr α) j => a.set j x) a i = if i ∈ l then x else a i := by
  induction l generalizing a with
  | nil => simp
  | cons j l ih =>
    rw [List.foldl_cons, ih, Arr.set_apply]
    by_cases hil : i ∈ l
    · simp [hil]
    · by_cases hij : i = j
      · simp [hij]
      · simp [hil, hij]

/-- The list of the first `n` entries. -/
def toList (n : ℕ) (a : Arr α) : List α := (List.range n).map a

@[simp] theorem length_toList (n : ℕ) (a : Arr α) : (toList n a).length = n := by simp [toList]

@[simp] theorem getElem_toList {n i : ℕ} (a : Arr α) (h : i < (toList n a).length) :
    (toList n a)[i] = a i := by simp [toList]

theorem toList_congr {n : ℕ} {a a' : Arr α} (h : ∀ i < n, a i = a' i) :
    toList n a = toList n a' :=
  List.map_congr_left fun i hi => h i (List.mem_range.1 hi)

theorem mem_toList {n : ℕ} {a : Arr α} {x : α} : x ∈ toList n a ↔ ∃ i < n, a i = x := by
  simp [toList]

/-! ## Permutations of the first indices -/

/-- `σ` permutes the indices below `n`. -/
structure IsPerm (n : ℕ) (σ : ℕ → ℕ) : Prop where
  /-- It keeps the indices below `n`. -/
  maps : ∀ i < n, σ i < n
  /-- It identifies no two of them. -/
  inj : ∀ i < n, ∀ j < n, σ i = σ j → i = j

namespace IsPerm

variable {n : ℕ} {σ : ℕ → ℕ}

/-- A permutation of the indices, as an equivalence. -/
noncomputable def equiv (h : IsPerm n σ) : Fin n ≃ Fin n :=
  Equiv.ofBijective (fun i => ⟨σ i, h.maps i i.2⟩) (Finite.injective_iff_bijective.1 fun i j hij =>
    Fin.ext (h.inj i i.2 j j.2 (congrArg Fin.val hij)))

@[simp] theorem equiv_val (h : IsPerm n σ) (i : Fin n) : (h.equiv i : ℕ) = σ i := rfl

theorem surj (h : IsPerm n σ) {v : ℕ} (hv : v < n) : ∃ i < n, σ i = v := by
  obtain ⟨i, hi⟩ := h.equiv.surjective ⟨v, hv⟩
  exact ⟨i, i.2, congrArg Fin.val hi⟩

theorem refl (n : ℕ) : IsPerm n id := ⟨fun _ h => h, fun _ _ _ _ h => h⟩

/-- The entries of a rearrangement of the indices permute them. -/
theorem of_perm {l : List ℕ} (h : l.Perm (List.range n)) : IsPerm n fun i => l.getD i 0 := by
  have hlen : l.length = n := by simpa using h.length_eq
  have hget : ∀ i (hi : i < l.length), l.getD i 0 = l[i] := fun i hi =>
    List.getD_eq_getElem _ _ hi
  refine ⟨fun i hi => ?_, fun i hi j hj hij => ?_⟩
  · rw [hget i (by omega)]
    exact List.mem_range.1 (h.mem_iff.1 (List.getElem_mem _))
  · have hi' : i < l.length := by omega
    have hj' : j < l.length := by omega
    rw [hget i hi', hget j hj'] at hij
    exact (List.Nodup.getElem_inj_iff (h.nodup_iff.2 List.nodup_range)).1
      (show l[i] = l[j] from hij)

end IsPerm

/-! ## Loops that write -/

/-- `for i < n do a[idx[i]] := val[i]`. -/
def scatter (n : ℕ) (idx : ℕ → ℕ) (val : ℕ → α) (a : Arr α) : Arr α :=
  (List.range n).foldl (fun a i => a.set (idx i) (val i)) a

@[simp] theorem scatter_zero (idx : ℕ → ℕ) (val : ℕ → α) (a : Arr α) :
    scatter 0 idx val a = a := rfl

theorem scatter_succ (n : ℕ) (idx : ℕ → ℕ) (val : ℕ → α) (a : Arr α) :
    scatter (n + 1) idx val a = (scatter n idx val a).set (idx n) (val n) := by
  simp [scatter, List.range_succ]

/-- A scatter leaves the entries it does not name. -/
theorem scatter_of_forall_ne {n : ℕ} {idx : ℕ → ℕ} (val : ℕ → α) (a : Arr α) {v : ℕ}
    (h : ∀ i < n, idx i ≠ v) : scatter n idx val a v = a v := by
  induction n with
  | zero => rfl
  | succ n ih =>
    rw [scatter_succ, Arr.set_of_ne _ _ (h n (by omega)).symm, ih fun i hi => h i (by omega)]

/-- A scatter to distinct places puts every value at its place. -/
theorem scatter_apply {n : ℕ} {idx : ℕ → ℕ} (val : ℕ → α) (a : Arr α)
    (hinj : ∀ i < n, ∀ j < n, idx i = idx j → i = j) {i : ℕ} (hi : i < n) :
    scatter n idx val a (idx i) = val i := by
  induction n with
  | zero => omega
  | succ n ih =>
    rw [scatter_succ]
    by_cases hin : i = n
    · rw [hin, Arr.set_self]
    · rw [Arr.set_of_ne _ _ fun h => hin (hinj i hi n (by omega) h)]
      exact ih (fun i hi j hj => hinj i (by omega) j (by omega)) (by omega)

theorem scatter_perm {n : ℕ} {σ : ℕ → ℕ} (hσ : IsPerm n σ) (val : ℕ → α) (a : Arr α) {i : ℕ}
    (hi : i < n) : scatter n σ val a (σ i) = val i := scatter_apply val a hσ.inj hi

/-- `for i < n do a[i] := f i`. -/
def fill (n : ℕ) (f : ℕ → α) (a : Arr α) : Arr α := scatter n id f a

theorem fill_of_lt {n i : ℕ} (f : ℕ → α) (a : Arr α) (h : i < n) : fill n f a i = f i :=
  scatter_perm (IsPerm.refl n) f a h

theorem fill_of_le {n i : ℕ} (f : ℕ → α) (a : Arr α) (h : n ≤ i) : fill n f a i = a i :=
  scatter_of_forall_ne f a fun j hj => by simp only [id]; omega

theorem fill_congr {n : ℕ} {f f' : ℕ → α} (h : ∀ i < n, f i = f' i) (a : Arr α) :
    fill n f a = fill n f' a := by
  ext i
  by_cases hi : i < n
  · rw [fill_of_lt _ _ hi, fill_of_lt _ _ hi, h i hi]
  · rw [fill_of_le _ _ (not_lt.1 hi), fill_of_le _ _ (not_lt.1 hi)]

/-! ## Checked accesses -/

/-- `a[i]` of an array with `n` entries. -/
def Arr.read (n : ℕ) (a : Arr α) (i : ℕ) : Option α := if i < n then some (a i) else none

/-- `a[i] := x` in an array with `n` entries. -/
def Arr.write (n : ℕ) (a : Arr α) (i : ℕ) (x : α) : Option (Arr α) :=
  if i < n then some (a.set i x) else none

theorem Arr.read_of_lt {n i : ℕ} (a : Arr α) (h : i < n) : a.read n i = some (a i) := if_pos h

theorem Arr.write_of_lt {n i : ℕ} (a : Arr α) (x : α) (h : i < n) :
    a.write n i x = some (a.set i x) := if_pos h

/-- Overwrite the first entries by a list. -/
def store (l : List α) (a : Arr α) : Arr α := fill l.length (fun i => l.getD i (a i)) a

theorem store_of_lt {l : List α} {i : ℕ} (a : Arr α) (h : i < l.length) : store l a i = l[i] := by
  rw [store, fill_of_lt _ _ h, List.getD_eq_getElem _ _ h]

end Arrays
