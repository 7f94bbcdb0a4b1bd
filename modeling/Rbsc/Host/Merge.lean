import Rbsc.Host.Model

/-!
# The quotient, out of place

What the compaction loop is for: of every class the group of the first source is kept, with both
ends renamed, and edges with the same ends are merged into the first of them.  For a renaming `w`
whose classes are stable, this is the quotient of the graph by `w` (`isQuotient`).

* `Edge.rename`, `Kept`, `addEdge`, `quotientEdges`: the parts and the whole;
* `quotientEdges_grouped`, `quotientEdges_ids`, `quotientEdges_nodup`: it is again a graph, without
  parallel edges;
* `quotientEdges_rename`: it commutes with renamings of the nodes and of the classes.
-/

namespace Rbsc

open Lumping

/-! ## Grouped edges -/

/-- Grouped edges, by the sublists of three sources. -/
theorem grouped_iff_sublist {edges : List Edge} :
    Grouped edges ↔ ∀ a b, [a, b, a].Sublist (edges.map Edge.edge_start) → b = a := by
  constructor
  · intro h a b hs
    obtain ⟨is, his, hlt⟩ := List.sublist_eq_map_getElem hs
    obtain ⟨i, j, k, rfl⟩ : ∃ i j k, is = [i, j, k] := by
      rw [← List.length_eq_three, ← List.length_map, ← his]
      rfl
    simp only [List.map_cons, List.map_nil, List.cons.injEq, and_true, Fin.getElem_fin,
      List.getElem_map] at his
    simp only [List.pairwise_cons, List.mem_cons, List.not_mem_nil, or_false, forall_eq_or_imp,
      forall_eq, Fin.lt_def] at hlt
    have hi : (i : ℕ) < edges.length := by simpa using i.2
    have hj : (j : ℕ) < edges.length := by simpa using j.2
    have hk : (k : ℕ) < edges.length := by simpa using k.2
    have := h k hk j hlt.2.1 i hlt.1.1
    rw [startAt_eq hi, startAt_eq hj, startAt_eq hk] at this
    rw [his.2.1, his.2.2]
    exact this (his.1.symm.trans his.2.2)
  · intro h k hk j hj i hi hik
    rw [startAt_eq hk, startAt_eq (by omega)] at hik ⊢
    refine h _ _ ?_
    have hlen : (edges.map Edge.edge_start).length = edges.length := List.length_map _
    have hlt : [(⟨i, by omega⟩ : Fin (edges.map Edge.edge_start).length), ⟨j, by omega⟩,
        ⟨k, by omega⟩].Pairwise (· < ·) := by
      simp only [List.pairwise_cons, List.mem_cons, List.not_mem_nil, or_false, forall_eq_or_imp,
        forall_eq, Fin.lt_def]
      exact ⟨⟨hi, by omega⟩, hj, by simp, List.Pairwise.nil⟩
    have hsub := List.map_getElem_sublist hlt
    simp only [List.map_cons, List.map_nil, Fin.getElem_fin, List.getElem_map] at hsub
    rwa [hik] at hsub

theorem Grouped.of_sublist {edges edges' : List Edge} (h : Grouped edges)
    (hs : (edges'.map Edge.edge_start).Sublist (edges.map Edge.edge_start)) : Grouped edges' :=
  grouped_iff_sublist.2 fun a b hab => grouped_iff_sublist.1 h a b (hab.trans hs)

/-! ## The parts -/

/-- Both ends renamed. -/
def Edge.rename (f : ℕ → ℕ) (e : Edge) : Edge :=
  { e with edge_start := f e.edge_start, edge_end := f e.edge_end }

/-- The edges have the same ends. -/
def SameEnds (e f : Edge) : Prop := e.edge_start = f.edge_start ∧ e.edge_end = f.edge_end

instance (e f : Edge) : Decidable (SameEnds e f) := by unfold SameEnds; infer_instance

/-- The edge is merged into the one with the same ends, or comes last. -/
def addEdge : List Edge → Edge → List Edge
  | [], e => [e]
  | f :: l, e =>
    if SameEnds f e then { f with edge_weight := (f.edge_weight + e.edge_weight) % 2 ^ 64 } :: l
    else f :: addEdge l e

/-- The group of the source is the first one of its class. -/
def Kept (w : ℕ → ℕ) (edges : List Edge) (u : ℕ) : Prop :=
  (edges.find? fun e => w e.edge_start = w u).map Edge.edge_start = some u

instance (w : ℕ → ℕ) (edges : List Edge) (u : ℕ) : Decidable (Kept w edges u) := by
  unfold Kept; infer_instance

/-- The kept edges, renamed. -/
def keptEdges (w : ℕ → ℕ) (edges l : List Edge) : List Edge :=
  (l.filter fun e => Kept w edges e.edge_start).map (Edge.rename w)

/-- The quotient of the edges by `w`. -/
def quotientEdges (w : ℕ → ℕ) (edges : List Edge) : List Edge :=
  (keptEdges w edges edges).foldl addEdge []

/-! ## Merging -/

section Merge

variable {l acc : List Edge} {e : Edge}

theorem addEdge_of_forall_not (h : ∀ f ∈ l, ¬ SameEnds f e) : addEdge l e = l ++ [e] := by
  induction l with
  | nil => rfl
  | cons f l ih =>
    rw [addEdge, if_neg (h f (List.mem_cons_self ..)), ih fun f' hf' =>
      h f' (List.mem_cons_of_mem _ hf'), List.cons_append]

theorem addEdge_of_index {k : ℕ} (hk : k < l.length) (hs : SameEnds l[k] e)
    (hlt : ∀ j < k, ∀ (hj : j < l.length), ¬ SameEnds l[j] e) :
    addEdge l e = l.set k { l[k] with edge_weight := (l[k].edge_weight + e.edge_weight) % 2 ^ 64 }
      := by
  induction l generalizing k with
  | nil => simp at hk
  | cons f l ih =>
    cases k with
    | zero =>
      have hs : SameEnds f e := hs
      rw [addEdge, if_pos hs]
      rfl
    | succ k =>
      have h0 : ¬ SameEnds f e := hlt 0 (by omega) (by simp)
      have hk' : k < l.length := by simpa using hk
      have := ih hk' hs fun j hj hjl => hlt (j + 1) (by omega) (by simpa using hjl)
      rw [addEdge, if_neg h0, this]
      rfl

/-- The ends of the edges after one more: those that were there, and the new ones at the end. -/
theorem map_addEdge {β : Type*} (f : Edge → β)
    (hf : ∀ e e', SameEnds e e' → f e = f e') (l : List Edge) (e : Edge) :
    (addEdge l e).map f = l.map f ∧ (∃ e' ∈ l, SameEnds e' e) ∨
      (addEdge l e).map f = l.map f ++ [f e] ∧ ∀ e' ∈ l, ¬ SameEnds e' e := by
  induction l with
  | nil => exact Or.inr ⟨rfl, by simp⟩
  | cons g l ih =>
    rw [addEdge]
    split_ifs with hg
    · refine Or.inl ⟨?_, g, List.mem_cons_self .., hg⟩
      rw [List.map_cons, List.map_cons]
      exact congrArg (· :: l.map f) (hf _ g ⟨rfl, rfl⟩)
    · rcases ih with ⟨h, e', he', hs⟩ | ⟨h, hno⟩
      · exact Or.inl ⟨by simp [h], e', List.mem_cons_of_mem _ he', hs⟩
      · refine Or.inr ⟨by simp [h], fun e' he' => ?_⟩
        rcases List.mem_cons.1 he' with rfl | he'
        · exact hg
        · exact hno e' he'

/-- The ends of the merged edges are the ends of the edges. -/
theorem exists_sameEnds_addEdge {e' : Edge} :
    (∃ f ∈ addEdge l e, SameEnds f e') ↔ (∃ f ∈ l, SameEnds f e') ∨ SameEnds e e' := by
  induction l with
  | nil => simp [addEdge]
  | cons g l ih =>
    rw [addEdge]
    split_ifs with hg
    · simp only [List.exists_mem_cons_iff]
      constructor
      · rintro (h | h)
        · exact Or.inl (Or.inl h)
        · exact Or.inl (Or.inr h)
      · rintro ((h | h) | h)
        · exact Or.inl h
        · exact Or.inr h
        · exact Or.inl ⟨hg.1.trans h.1, hg.2.trans h.2⟩
    · simp only [List.exists_mem_cons_iff, ih, or_assoc]

theorem exists_sameEnds_foldl {e' : Edge} :
    (∃ f ∈ l.foldl addEdge acc, SameEnds f e') ↔
      (∃ f ∈ acc, SameEnds f e') ∨ ∃ f ∈ l, SameEnds f e' := by
  induction l generalizing acc with
  | nil => simp
  | cons e l ih =>
    rw [List.foldl_cons, ih, exists_sameEnds_addEdge, List.exists_mem_cons_iff, or_assoc]

/-- A merged edge has the ends of an edge. -/
theorem mem_foldl_addEdge {f : Edge} (h : f ∈ l.foldl addEdge []) : ∃ e ∈ l, SameEnds e f := by
  have : (∃ e ∈ [], SameEnds e f) ∨ ∃ e ∈ l, SameEnds e f :=
    exists_sameEnds_foldl.1 ⟨f, h, rfl, rfl⟩
  simpa using this

theorem grouped_addEdge (h : Grouped (acc ++ e :: l)) : Grouped (addEdge acc e ++ l) := by
  rcases map_addEdge Edge.edge_start (fun _ _ h => h.1) acc e with ⟨hm, -⟩ | ⟨hm, -⟩
  · apply h.of_sublist
    rw [List.map_append, hm, List.map_append, List.map_cons]
    exact (List.sublist_cons_self _ _).append_left _
  · apply h.of_sublist
    rw [List.map_append, hm, List.map_append, List.map_cons, List.append_assoc]
    exact List.Sublist.refl _

theorem grouped_foldl (h : Grouped (acc ++ l)) : Grouped (l.foldl addEdge acc) := by
  induction l generalizing acc with
  | nil => rwa [List.append_nil] at h
  | cons e l ih => exact ih (grouped_addEdge h)

/-- No two merged edges have the same ends. -/
theorem nodup_foldl (h : (acc.map fun e => (e.edge_start, e.edge_end)).Nodup) :
    ((l.foldl addEdge acc).map fun e => (e.edge_start, e.edge_end)).Nodup := by
  induction l generalizing acc with
  | nil => exact h
  | cons e l ih =>
    apply ih
    rcases map_addEdge (fun e : Edge => (e.edge_start, e.edge_end))
      (fun _ _ h => Prod.ext h.1 h.2) acc e with ⟨hm, -⟩ | ⟨hm, hno⟩
    · rwa [hm]
    · rw [hm]
      refine List.nodup_append.2 ⟨h, List.nodup_singleton _, fun p hp q hq hpq => ?_⟩
      obtain ⟨f, hf, rfl⟩ := List.mem_map.1 hp
      rw [List.mem_singleton.1 hq] at hpq
      exact hno f hf ⟨(Prod.ext_iff.1 hpq).1, (Prod.ext_iff.1 hpq).2⟩

theorem totalWeight_cons (e : Edge) (l : List Edge) :
    totalWeight (e :: l) = e.edge_weight + totalWeight l := by simp [totalWeight]

/-- The exact total of the weights of the edges out of `u`. -/
def outWeight (edges : List Edge) (u : ℕ) : ℕ :=
  totalWeight (edges.filter fun e => e.edge_start = u)

@[simp] theorem outWeight_nil (u : ℕ) : outWeight [] u = 0 := rfl

theorem outWeight_cons (e : Edge) (l : List Edge) (u : ℕ) :
    outWeight (e :: l) u = (if e.edge_start = u then e.edge_weight else 0) + outWeight l u := by
  unfold outWeight
  by_cases h : e.edge_start = u
  · rw [if_pos h, List.filter_cons_of_pos (by simpa using h), totalWeight_cons]
  · rw [if_neg h, List.filter_cons_of_neg (by simpa using h), Nat.zero_add]

theorem outWeight_le_total (l : List Edge) (u : ℕ) : outWeight l u ≤ totalWeight l := by
  induction l with
  | nil => exact le_rfl
  | cons e l ih =>
    rw [outWeight_cons, totalWeight_cons]
    split_ifs <;> omega

/-- As long as the total out of its source does not wrap, merging an edge keeps the weights. -/
theorem addEdge_weights (h : outWeight l e.edge_start + e.edge_weight < 2 ^ 64) :
    totalWeight (addEdge l e) = totalWeight l + e.edge_weight ∧
      (∀ u, outWeight (addEdge l e) u = outWeight l u + outWeight [e] u) ∧
      ∀ u v, edgeWeight (addEdge l e) u v = edgeWeight l u v + edgeWeight [e] u v := by
  induction l with
  | nil => exact ⟨by simp [addEdge, totalWeight], fun u => by simp [addEdge],
      fun u v => by simp [addEdge]⟩
  | cons f l ih =>
    rw [outWeight_cons] at h
    rw [addEdge]
    split_ifs with hf
    · rw [if_pos hf.1] at h
      have hmod : (f.edge_weight + e.edge_weight) % 2 ^ 64 = f.edge_weight + e.edge_weight :=
        Nat.mod_eq_of_lt (by omega)
      rw [hmod]
      refine ⟨by rw [totalWeight_cons, totalWeight_cons]; dsimp only; omega, fun u => ?_,
        fun u v => ?_⟩
      · simp only [outWeight_cons, outWeight_nil, hf.1]
        split_ifs <;> omega
      · simp only [edgeWeight_cons, edgeWeight_nil, hf.1, hf.2]
        split_ifs <;> omega
    · obtain ⟨h₁, h₂, h₃⟩ := ih (by omega)
      refine ⟨by rw [totalWeight_cons, totalWeight_cons, h₁]; omega, fun u => ?_, fun u v => ?_⟩
      · rw [outWeight_cons, outWeight_cons, h₂]
        omega
      · rw [edgeWeight_cons, edgeWeight_cons, h₃]
        omega

/-- As long as no total out of a node wraps, merging keeps the weights. -/
theorem foldl_weights (h : ∀ u, outWeight acc u + outWeight l u < 2 ^ 64) :
    totalWeight (l.foldl addEdge acc) = totalWeight acc + totalWeight l ∧
      (∀ u, outWeight (l.foldl addEdge acc) u = outWeight acc u + outWeight l u) ∧
      ∀ u v, edgeWeight (l.foldl addEdge acc) u v = edgeWeight acc u v + edgeWeight l u v := by
  induction l generalizing acc with
  | nil => exact ⟨by simp [totalWeight], fun u => by simp, fun u v => by simp⟩
  | cons e l ih =>
    have he := h e.edge_start
    rw [outWeight_cons, if_pos rfl] at he
    obtain ⟨h₁, h₂, h₃⟩ := addEdge_weights (l := acc) (e := e) (by omega)
    have hsplit : ∀ u, outWeight (e :: l) u = outWeight [e] u + outWeight l u := fun u => by
      rw [outWeight_cons e l, outWeight_cons e [], outWeight_nil, Nat.add_zero]
    have hrest : ∀ u, outWeight (addEdge acc e) u + outWeight l u < 2 ^ 64 := fun u => by
      have := h u
      rw [hsplit] at this
      rw [h₂]
      omega
    obtain ⟨h₄, h₅, h₆⟩ := ih hrest
    refine ⟨by rw [List.foldl_cons, h₄, h₁, totalWeight_cons]; omega, fun u => ?_, fun u v => ?_⟩
    · rw [List.foldl_cons, h₅, h₂, hsplit]
      omega
    · rw [List.foldl_cons, h₆, h₃, edgeWeight_cons e l, edgeWeight_cons e [], edgeWeight_nil]
      omega

/-- A bound on the total is one on the total out of every node. -/
theorem outWeight_add_lt (h : totalWeight acc + totalWeight l < 2 ^ 64) (u : ℕ) :
    outWeight acc u + outWeight l u < 2 ^ 64 := by
  have h₁ := outWeight_le_total acc u
  have h₂ := outWeight_le_total l u
  omega

theorem posWeights_addEdge (hacc : PosWeights acc) (he : 0 < e.edge_weight)
    (h : totalWeight acc + e.edge_weight < 2 ^ 64) : PosWeights (addEdge acc e) := by
  induction acc with
  | nil =>
    intro f hf
    rw [List.mem_singleton.1 hf]
    exact he
  | cons g acc ih =>
    rw [totalWeight_cons] at h
    have hg := hacc g (List.mem_cons_self ..)
    have hrest : PosWeights acc := fun f hf => hacc f (List.mem_cons_of_mem _ hf)
    rw [addEdge]
    split_ifs with hs
    · intro f hf
      rcases List.mem_cons.1 hf with rfl | hf
      · dsimp only
        rw [Nat.mod_eq_of_lt (by omega)]
        omega
      · exact hrest f hf
    · intro f hf
      rcases List.mem_cons.1 hf with rfl | hf
      · exact hg
      · exact ih hrest (by omega) f hf

theorem posWeights_foldl (hacc : PosWeights acc) (hl : PosWeights l)
    (h : totalWeight acc + totalWeight l < 2 ^ 64) : PosWeights (l.foldl addEdge acc) := by
  induction l generalizing acc with
  | nil => exact hacc
  | cons e l ih =>
    rw [totalWeight_cons] at h
    have hout := outWeight_le_total acc e.edge_start
    refine ih (posWeights_addEdge hacc (hl e (List.mem_cons_self ..)) (by omega))
      (fun f hf => hl f (List.mem_cons_of_mem _ hf)) ?_
    rw [(addEdge_weights (by omega)).1]
    omega

end Merge

/-! ## The kept groups -/

section Kept

variable {w : ℕ → ℕ} {edges : List Edge} {u v : ℕ}

/-- No two kept groups are of one class. -/
theorem Kept.inj (hu : Kept w edges u) (hv : Kept w edges v) (h : w u = w v) : u = v := by
  unfold Kept at hu hv
  rw [h] at hu
  exact Option.some.inj (hu.symm.trans hv)

/-- Every class with a source has a kept group. -/
theorem exists_kept (w : ℕ → ℕ) (hu : IsSource edges u) : ∃ u', Kept w edges u' ∧ w u' = w u ∧
    IsSource edges u' := by
  obtain ⟨e, he, rfl⟩ := hu
  cases hf : edges.find? fun e' => w e'.edge_start = w e.edge_start with
  | none =>
    have := List.find?_eq_none.1 hf e he
    simp at this
  | some e' =>
    have hw : w e'.edge_start = w e.edge_start := by simpa using List.find?_some hf
    refine ⟨e'.edge_start, ?_, hw, e', List.mem_of_find?_eq_some hf, rfl⟩
    simp only [Kept, hw, hf, Option.map_some]

theorem mem_keptEdges {l : List Edge} {e' : Edge} : e' ∈ keptEdges w edges l ↔
    ∃ e ∈ l, Kept w edges e.edge_start ∧ e.rename w = e' := by
  simp [keptEdges, and_assoc]

/-- The weights of the kept edges are those of the kept source of the class. -/
theorem edgeWeight_keptEdges {n : ℕ} {l : List Edge} (hids : IdsBelow n l)
    (hu : Kept w edges u) (d : ℕ) : edgeWeight (keptEdges w edges l) (w u) d =
      ∑ y ∈ Finset.univ.filter (fun y : Fin n => w y = d), edgeWeight l u y := by
  induction l with
  | nil => simp [keptEdges]
  | cons e l ih =>
    have ih := ih fun e' he' => hids e' (List.mem_cons_of_mem _ he')
    have hend := (hids e (List.mem_cons_self ..)).2
    simp only [edgeWeight_cons e l, Finset.sum_add_distrib]
    -- the edge counts for one target
    have hone : (∑ y ∈ Finset.univ.filter (fun y : Fin n => w y = d),
        if e.edge_start = u ∧ e.edge_end = y then e.edge_weight else 0) =
          if e.edge_start = u ∧ w e.edge_end = d then e.edge_weight else 0 := by
      rw [Finset.sum_filter, Finset.sum_eq_single ⟨e.edge_end, hend⟩]
      · by_cases hs : e.edge_start = u <;> by_cases hd : w e.edge_end = d <;> simp [hs, hd]
      · intro y _ hy
        have : ¬ (e.edge_start = u ∧ e.edge_end = y) := fun h => hy (Fin.ext h.2.symm)
        simp [this]
      · simp
    rw [hone, ← ih]
    by_cases hk : Kept w edges e.edge_start
    · have : keptEdges w edges (e :: l) = e.rename w :: keptEdges w edges l := by
        simp [keptEdges, hk]
      rw [this, edgeWeight_cons]
      have hiff : (w e.edge_start = w u ∧ w e.edge_end = d) ↔
          (e.edge_start = u ∧ w e.edge_end = d) :=
        and_congr_left fun _ => ⟨fun h => hk.inj hu h, fun h => congrArg w h⟩
      simp only [Edge.rename, hiff]
    · have : keptEdges w edges (e :: l) = keptEdges w edges l := by
        simp [keptEdges, hk]
      have hne : ¬ (e.edge_start = u ∧ w e.edge_end = d) := fun h => hk (h.1 ▸ hu)
      rw [this, if_neg hne, Nat.zero_add]

theorem totalWeight_keptEdges_le (w : ℕ → ℕ) (edges l : List Edge) :
    totalWeight (keptEdges w edges l) ≤ totalWeight l := by
  induction l with
  | nil => simp [keptEdges]
  | cons e l ih =>
    rw [totalWeight_cons]
    by_cases hk : Kept w edges e.edge_start
    · have : keptEdges w edges (e :: l) = e.rename w :: keptEdges w edges l := by
        simp [keptEdges, hk]
      rw [this, totalWeight_cons]
      exact Nat.add_le_add_left ih _
    · have : keptEdges w edges (e :: l) = keptEdges w edges l := by
        simp [keptEdges, hk]
      rw [this]
      omega

theorem grouped_keptEdges {l : List Edge} (h : Grouped l) : Grouped (keptEdges w edges l) := by
  rw [grouped_iff_sublist] at h ⊢
  intro a b hab
  have hmap : (keptEdges w edges l).map Edge.edge_start =
      ((l.filter fun e => Kept w edges e.edge_start).map Edge.edge_start).map w := by
    rw [keptEdges, List.map_map, List.map_map]
    rfl
  rw [hmap] at hab
  obtain ⟨l', hl', hl'w⟩ := List.sublist_map_iff.1 hab
  obtain ⟨x, y, z, rfl⟩ : ∃ x y z, l' = [x, y, z] := by
    rw [← List.length_eq_three, ← List.length_map (f := w), ← hl'w]
    rfl
  simp only [List.map_cons, List.map_nil, List.cons.injEq, and_true] at hl'w
  have hkept : ∀ t ∈ [x, y, z], Kept w edges t := fun t ht => by
    obtain ⟨e, he, rfl⟩ := List.mem_map.1 (hl'.subset ht)
    simpa using (List.mem_filter.1 he).2
  have hxz : x = z := (hkept x (by simp)).inj (hkept z (by simp)) (hl'w.1.symm.trans hl'w.2.2)
  subst hxz
  rw [hl'w.1, hl'w.2.1, h x y (hl'.trans ((List.filter_sublist).map _))]

end Kept

/-! ## The quotient -/

section Quotient

variable {w : ℕ → ℕ} {edges : List Edge} {n m : ℕ}

theorem quotientEdges_grouped (h : Grouped edges) : Grouped (quotientEdges w edges) :=
  grouped_foldl (by simpa using grouped_keptEdges h)

theorem quotientEdges_ids (hids : IdsBelow n edges) (hw : ∀ v < n, w v < m) :
    IdsBelow m (quotientEdges w edges) := by
  intro f hf
  obtain ⟨e', he', hs⟩ := mem_foldl_addEdge hf
  obtain ⟨e, he, -, rfl⟩ := mem_keptEdges.1 he'
  rw [← hs.1, ← hs.2]
  exact ⟨hw _ (hids e he).1, hw _ (hids e he).2⟩

theorem quotientEdges_nodup :
    ((quotientEdges w edges).map fun e => (e.edge_start, e.edge_end)).Nodup :=
  nodup_foldl List.nodup_nil

theorem quotientEdges_ne_nil (h : edges ≠ []) : quotientEdges w edges ≠ [] := by
  obtain ⟨e, l, rfl⟩ := List.exists_cons_of_ne_nil h
  have hsrc : IsSource (e :: l) e.edge_start := ⟨e, List.mem_cons_self .., rfl⟩
  obtain ⟨u, hu, -, e', he', rfl⟩ := exists_kept w hsrc
  have hmem : e'.rename w ∈ keptEdges w (e :: l) (e :: l) := mem_keptEdges.2 ⟨e', he', hu, rfl⟩
  have hex : ∃ f ∈ quotientEdges w (e :: l), SameEnds f (e'.rename w) :=
    exists_sameEnds_foldl.2 (Or.inr ⟨_, hmem, rfl, rfl⟩)
  obtain ⟨f, hf, -⟩ := hex
  exact List.ne_nil_of_mem hf

theorem quotientEdges_total (h : totalWeight edges < 2 ^ 64) :
    totalWeight (quotientEdges w edges) ≤ totalWeight edges := by
  have hle := totalWeight_keptEdges_le w edges edges
  have h0 : totalWeight [] = 0 := rfl
  rw [quotientEdges, (foldl_weights (outWeight_add_lt (by omega))).1]
  omega

theorem quotientEdges_pos (hpos : PosWeights edges) (h : totalWeight edges < 2 ^ 64) :
    PosWeights (quotientEdges w edges) := by
  have hle := totalWeight_keptEdges_le w edges edges
  have h0 : totalWeight [] = 0 := rfl
  refine posWeights_foldl (fun _ he => by simp at he) (fun f hf => ?_) (by omega)
  obtain ⟨e, he, -, rfl⟩ := mem_keptEdges.1 hf
  exact hpos e he

/-- The total out of a kept class is that out of the node that stands for it. -/
theorem outWeight_keptEdges {u : ℕ} {l : List Edge} (hu : Kept w edges u) :
    outWeight (keptEdges w edges l) (w u) = outWeight l u := by
  induction l with
  | nil => rfl
  | cons e l ih =>
    by_cases hk : Kept w edges e.edge_start
    · have : keptEdges w edges (e :: l) = e.rename w :: keptEdges w edges l := by
        simp [keptEdges, hk]
      have hiff : w e.edge_start = w u ↔ e.edge_start = u :=
        ⟨fun h => hk.inj hu h, fun h => congrArg w h⟩
      rw [this, outWeight_cons, outWeight_cons, ih]
      simp only [Edge.rename, hiff]
    · have : keptEdges w edges (e :: l) = keptEdges w edges l := by
        simp [keptEdges, hk]
      have hne : ¬ e.edge_start = u := fun h => hk (h ▸ hu)
      rw [this, outWeight_cons, ih, if_neg hne, Nat.zero_add]

/-- Bounds on the totals out of the nodes are bounds on those out of the classes. -/
theorem outWeight_keptEdges_lt {b : ℕ} (hb : ∀ u, outWeight edges u < b) (c : ℕ) :
    outWeight (keptEdges w edges edges) c < b := by
  by_cases hc : ∃ u, Kept w edges u ∧ w u = c
  · obtain ⟨u, hu, rfl⟩ := hc
    rw [outWeight_keptEdges hu]
    exact hb u
  · have hnil : (keptEdges w edges edges).filter (fun e => e.edge_start = c) = [] := by
      refine List.filter_eq_nil_iff.2 fun f hf hfc => hc ?_
      obtain ⟨e, -, hk, rfl⟩ := mem_keptEdges.1 hf
      exact ⟨e.edge_start, hk, of_decide_eq_true hfc⟩
    rw [outWeight, hnil]
    exact (Nat.zero_le _).trans_lt (hb 0)

theorem quotientEdges_out (h : ∀ u, outWeight edges u < 2 ^ 64) (c : ℕ) :
    outWeight (quotientEdges w edges) c < 2 ^ 64 := by
  have hlt := outWeight_keptEdges_lt (w := w) h
  rw [quotientEdges, (foldl_weights (by simpa using hlt)).2.1, outWeight_nil, Nat.zero_add]
  exact hlt c

/-- The weights of the quotient are exact when no total out of a node wraps. -/
theorem edgeWeight_quotientEdges (h : ∀ u, outWeight edges u < 2 ^ 64) (c d : ℕ) :
    edgeWeight (quotientEdges w edges) c d = edgeWeight (keptEdges w edges edges) c d := by
  have hlt := outWeight_keptEdges_lt (w := w) h
  rw [quotientEdges, (foldl_weights (by simpa using hlt)).2.2, edgeWeight_nil, Nat.zero_add]

/-- **The quotient by a stable partition.**  Every node, kept or dropped, has the weights of its
class into every class. -/
theorem isQuotient (hids : IdsBelow n edges) (htot : totalWeight edges < 2 ^ 64)
    (q : Fin n → Fin m) (hq : Function.Surjective q) (hqw : ∀ v, (q v : ℕ) = w v)
    (hst : Stable (weights edges n) (Setoid.ker q)) :
    IsQuotient (weights edges n) q (weights (quotientEdges w edges) m) := by
  classical
  intro v c
  obtain ⟨x, rfl⟩ := hq c
  -- the weight of a node into the class of `x`
  have hclass : ∀ t : Fin n,
      ∑ y ∈ Finset.univ.filter (fun y : Fin n => w y = w x), edgeWeight edges t y =
        classWeight (weights edges n) (Setoid.ker q) t x := fun t => by
    unfold classWeight
    refine Finset.sum_congr ?_ fun _ _ => rfl
    ext y
    simp only [Finset.mem_filter, Finset.mem_univ, true_and, Setoid.ker_def, Fin.ext_iff, hqw]
    exact eq_comm
  refine (show _ = classWeight (weights edges n) (Setoid.ker q) v x from ?_).trans ?_
  · unfold classWeight
    refine Finset.sum_congr ?_ fun _ _ => rfl
    ext y
    simp only [Finset.mem_filter, Finset.mem_univ, true_and, Setoid.ker_def]
    exact eq_comm
  have hout : ∀ u, outWeight edges u < 2 ^ 64 := fun u => (outWeight_le_total edges u).trans_lt htot
  rw [weights, edgeWeight_quotientEdges hout, hqw, hqw]
  by_cases hsrc : ∃ v' : Fin n, IsSource edges v' ∧ w v' = w v
  · obtain ⟨v', hv', hwv⟩ := hsrc
    obtain ⟨u, hu, huw, hus⟩ := exists_kept w hv'
    obtain ⟨e, he, rfl⟩ := hus
    have hlt := (hids e he).1
    have hker : Setoid.ker q v ⟨e.edge_start, hlt⟩ := by
      rw [Setoid.ker_def, Fin.ext_iff, hqw, hqw]
      exact (huw.trans hwv).symm
    rw [← hwv, ← huw, edgeWeight_keptEdges hids hu, hst _ _ hker x]
    exact (hclass ⟨e.edge_start, hlt⟩).symm
  · -- no node of the class has an edge
    have hleft : classWeight (weights edges n) (Setoid.ker q) v x = 0 := by
      refine Finset.sum_eq_zero fun y _ => edgeWeight_eq_zero (fun hs => hsrc ⟨v, hs, rfl⟩) y
    have hright : ¬ IsSource (keptEdges w edges edges) (w v) := by
      rintro ⟨e', he', hs⟩
      obtain ⟨e, he, -, rfl⟩ := mem_keptEdges.1 he'
      exact hsrc ⟨⟨e.edge_start, (hids e he).1⟩, ⟨e, he, rfl⟩, hs⟩
    rw [hleft, edgeWeight_eq_zero hright]

end Quotient

/-! ## Renamings -/

section Rename

variable {n : ℕ} {σ τ w w' : ℕ → ℕ}

theorem addEdge_rename {l : List Edge} {e : Edge} (hσ : ∀ f ∈ l,
    (σ f.edge_start = σ e.edge_start → f.edge_start = e.edge_start) ∧
      (σ f.edge_end = σ e.edge_end → f.edge_end = e.edge_end)) :
    addEdge (l.map (Edge.rename σ)) (e.rename σ) = (addEdge l e).map (Edge.rename σ) := by
  induction l with
  | nil => rfl
  | cons f l ih =>
    have hf := hσ f (List.mem_cons_self ..)
    have hiff : SameEnds (f.rename σ) (e.rename σ) ↔ SameEnds f e :=
      ⟨fun h => ⟨hf.1 h.1, hf.2 h.2⟩, fun h => ⟨congrArg σ h.1, congrArg σ h.2⟩⟩
    rw [List.map_cons, addEdge, addEdge]
    by_cases hs : SameEnds f e
    · rw [if_pos hs, if_pos (hiff.2 hs), List.map_cons]
      rfl
    · rw [if_neg hs, if_neg fun h => hs (hiff.1 h), List.map_cons,
        ih fun g hg => hσ g (List.mem_cons_of_mem _ hg)]

/-- Merging commutes with a renaming that identifies no two ids in use. -/
theorem foldl_rename {m : ℕ} (hσ : ∀ a < m, ∀ b < m, σ a = σ b → a = b) {l acc : List Edge}
    (hl : IdsBelow m l) (hacc : IdsBelow m acc) :
    (l.map (Edge.rename σ)).foldl addEdge (acc.map (Edge.rename σ)) =
      (l.foldl addEdge acc).map (Edge.rename σ) := by
  induction l generalizing acc with
  | nil => rfl
  | cons e l ih =>
    have he := hl e (List.mem_cons_self ..)
    rw [List.map_cons, List.foldl_cons, List.foldl_cons, addEdge_rename fun f hf =>
      ⟨hσ _ (hacc f hf).1 _ he.1, hσ _ (hacc f hf).2 _ he.2⟩]
    refine ih (fun f hf => hl f (List.mem_cons_of_mem _ hf)) fun f hf => ?_
    obtain ⟨g, hg, hs⟩ | hs := exists_sameEnds_addEdge.1 ⟨f, hf, rfl, rfl⟩
    · rw [← hs.1, ← hs.2]; exact hacc g hg
    · rw [← hs.1, ← hs.2]; exact he

/-- **The quotient commutes with renamings** of the nodes and of the classes. -/
theorem quotientEdges_rename {m : ℕ} {edges : List Edge} (hids : IdsBelow n edges)
    (hw : ∀ v < n, w v < m) (hτ : ∀ a < n, ∀ b < n, τ a = τ b → a = b)
    (hσ : ∀ a < m, ∀ b < m, σ a = σ b → a = b) (h : ∀ v < n, w' (τ v) = σ (w v)) :
    quotientEdges w' (edges.map (Edge.rename τ)) =
      (quotientEdges w edges).map (Edge.rename σ) := by
  have hkept : ∀ e ∈ edges, Kept w' (edges.map (Edge.rename τ)) (τ e.edge_start) ↔
      Kept w edges e.edge_start := by
    intro e he
    have hlt := (hids e he).1
    have hfind : ∀ f ∈ edges, (w' (τ f.edge_start) = w' (τ e.edge_start)) ↔
        w f.edge_start = w e.edge_start := fun f hf => by
      rw [h _ (hids f hf).1, h _ hlt]
      exact ⟨hσ _ (hw _ (hids f hf).1) _ (hw _ hlt), fun h => congrArg σ h⟩
    have hfind? : (edges.map (Edge.rename τ)).find?
        (fun f => w' f.edge_start = w' (τ e.edge_start)) =
          (edges.find? fun f => w f.edge_start = w e.edge_start).map (Edge.rename τ) := by
      rw [List.find?_map]
      congr 1
      exact List.find?_congr fun f hf => decide_eq_decide.2 (hfind f hf)
    unfold Kept
    rw [hfind?, Option.map_map]
    cases hf : edges.find? fun f => w f.edge_start = w e.edge_start with
    | none => simp
    | some f =>
      have hflt := (hids f (List.mem_of_find?_eq_some hf)).1
      simp only [Option.map_some, Function.comp_apply, Option.some_inj, Edge.rename]
      exact ⟨hτ _ hflt _ hlt, fun h => congrArg τ h⟩
  have hedges : keptEdges w' (edges.map (Edge.rename τ)) (edges.map (Edge.rename τ)) =
      (keptEdges w edges edges).map (Edge.rename σ) := by
    unfold keptEdges
    rw [List.filter_map, List.map_map, List.map_map]
    have hfilter : edges.filter ((fun e => decide
        (Kept w' (edges.map (Edge.rename τ)) e.edge_start)) ∘ Edge.rename τ) =
          edges.filter fun e => Kept w edges e.edge_start :=
      List.filter_congr fun e he => decide_eq_decide.2 (hkept e he)
    rw [hfilter]
    refine List.map_congr_left fun e he => ?_
    have he := hids e (List.mem_of_mem_filter he)
    simp only [Function.comp_apply, Edge.rename, h _ he.1, h _ he.2]
  have hbelow : IdsBelow m (keptEdges w edges edges) := by
    intro f hf
    obtain ⟨e, he, -, rfl⟩ := mem_keptEdges.1 hf
    exact ⟨hw _ (hids e he).1, hw _ (hids e he).2⟩
  rw [quotientEdges, hedges]
  have hnil : IdsBelow m [] := fun _ he => by simp at he
  exact foldl_rename hσ hbelow hnil

end Rename

end Rbsc
