import Rbsc.Host.Quotient

/-!
# The quotient, group by group

The quotient that the compaction loop leaves, as the list that a program with arrays to spare would
write: the groups in their order, those of a class that has occurred before left out, and every
other one renamed and merged on its own (`outOfPlace`).  Nothing is lost or counted twice, and no
entry is overwritten before it is read (`inPlace`).

* `sourceGroups`: the groups of a list of edges;
* `quotientEdges_eq_outOfPlace`: merging all kept edges in one list merges every group on its own.
-/

namespace Rbsc

open Lumping

/-- The groups of a list of edges, in their order. -/
def sourceGroups (edges : List Edge) : List (List Edge) :=
  edges.splitBy fun e f => e.edge_start = f.edge_start

/-- The quotient, group by group; `seen` are the classes that have occurred. -/
def outOfPlace (w : ℕ → ℕ) (seen : List ℕ) : List (List Edge) → List Edge
  | [] => []
  | [] :: groups => outOfPlace w seen groups
  | (e :: group) :: groups =>
    if w e.edge_start ∈ seen then outOfPlace w seen groups
    else ((e :: group).map (Edge.rename w)).foldl addEdge [] ++
      outOfPlace w (w e.edge_start :: seen) groups

section Groups

variable {w : ℕ → ℕ} {edges acc l : List Edge} {e : Edge}

theorem sourceGroups_const {g : List Edge} (hg : g ∈ sourceGroups edges) {e f : Edge} (he : e ∈ g)
    (hf : f ∈ g) : e.edge_start = f.edge_start := by
  have hchain := List.isChain_of_mem_splitBy hg
  have hmap : (g.map Edge.edge_start).IsChain (· = ·) := by
    rw [List.isChain_map]
    exact hchain.imp fun a b hab => of_decide_eq_true hab
  have hpair := List.isChain_iff_pairwise.1 hmap
  exact hpair.forall_of_forall (fun _ _ => rfl) (List.mem_map_of_mem he) (List.mem_map_of_mem hf)

/-- The groups of grouped edges have different sources. -/
theorem pairwise_of_chain {gs : List (List Edge)} (hgr : Grouped gs.flatten)
    (hne : ∀ g ∈ gs, g ≠ [])
    (hconst : ∀ g ∈ gs, ∀ e ∈ g, ∀ f ∈ g, e.edge_start = f.edge_start)
    (hchain : gs.IsChain fun g h => ∀ e ∈ g, ∀ f ∈ h, e.edge_start ≠ f.edge_start) :
    gs.Pairwise fun g h => ∀ e ∈ g, ∀ f ∈ h, e.edge_start ≠ f.edge_start := by
  induction gs with
  | nil => exact List.Pairwise.nil
  | cons g gs ih =>
    have hrest : Grouped gs.flatten := hgr.of_sublist (by simp)
    refine List.pairwise_cons.2 ⟨fun h hh e he f hf hef => ?_, ih hrest
      (fun h hh => hne h (List.mem_cons_of_mem _ hh))
      (fun h hh => hconst h (List.mem_cons_of_mem _ hh)) hchain.tail⟩
    cases gs with
    | nil => simp at hh
    | cons g₁ gs =>
      have hadj := (List.isChain_cons_cons.1 hchain).1
      rcases List.mem_cons.1 hh with rfl | hh
      · exact hadj e he f hf hef
      · -- the next group stands between the two
        obtain ⟨x, hx⟩ := List.exists_mem_of_ne_nil g₁ (hne g₁ (by simp))
        have hsub : [e, x, f].Sublist (g :: g₁ :: gs).flatten := by
          rw [List.flatten_cons, List.flatten_cons]
          have h₁ := (List.singleton_sublist.2 hx).append
            (List.singleton_sublist.2 (List.mem_flatten.2 ⟨h, hh, hf⟩))
          exact (List.singleton_sublist.2 he).append h₁
        have hmap := hsub.map Edge.edge_start
        simp only [List.map_cons, List.map_nil, ← hef] at hmap
        exact hadj e he x hx (grouped_iff_sublist.1 hgr _ _ hmap).symm

theorem sourceGroups_pairwise (hgr : Grouped edges) : (sourceGroups edges).Pairwise
    fun g h => ∀ e ∈ g, ∀ f ∈ h, e.edge_start ≠ f.edge_start := by
  have hflat : (sourceGroups edges).flatten = edges := List.flatten_splitBy _ _
  have hconst : ∀ g ∈ sourceGroups edges, ∀ e ∈ g, ∀ f ∈ g, e.edge_start = f.edge_start :=
    fun g hg e he f hf => sourceGroups_const hg he hf
  refine pairwise_of_chain (by rwa [hflat]) (fun g hg => List.ne_nil_of_mem_splitBy hg) hconst ?_
  have hchain := List.isChain_getLast_head_splitBy
    (fun e f : Edge => decide (e.edge_start = f.edge_start)) edges
  refine List.IsChain.imp_of_mem_imp ?_ hchain
  rintro g h hg hh ⟨ha, hb, hne⟩ e he f hf hef
  have h₁ := hconst g hg e he _ (List.getLast_mem ha)
  have h₂ := hconst h hh f hf _ (List.head_mem hb)
  exact of_decide_eq_false hne (h₁.symm.trans (hef.trans h₂))

/-! ## Group by group -/

theorem addEdge_append (h : ∀ f ∈ acc, ¬ SameEnds f e) :
    addEdge (acc ++ l) e = acc ++ addEdge l e := by
  induction acc with
  | nil => rfl
  | cons f acc ih =>
    rw [List.cons_append, addEdge, if_neg (h f (List.mem_cons_self ..)),
      ih fun f' hf' => h f' (List.mem_cons_of_mem _ hf'), List.cons_append]

/-- Edges of other sources are merged apart. -/
theorem foldl_addEdge_append {l' : List Edge}
    (h : ∀ f ∈ acc, ∀ e ∈ l', f.edge_start ≠ e.edge_start) :
    l'.foldl addEdge (acc ++ l) = acc ++ l'.foldl addEdge l := by
  induction l' generalizing l with
  | nil => rfl
  | cons e l' ih =>
    have he : ∀ f ∈ acc, ¬ SameEnds f e := fun f hf hs => h f hf e (List.mem_cons_self ..) hs.1
    rw [List.foldl_cons, List.foldl_cons, addEdge_append he]
    exact ih fun f hf e' he' => h f hf e' (List.mem_cons_of_mem _ he')

/-- A group is kept when its class has not occurred before it. -/
theorem kept_append_iff (h : ∀ f ∈ l, f.edge_start ≠ e.edge_start) (l' : List Edge) :
    Kept w (l ++ e :: l') e.edge_start ↔ ∀ f ∈ l, w f.edge_start ≠ w e.edge_start := by
  unfold Kept
  rw [List.find?_append, Option.map_eq_some_iff]
  constructor
  · rintro ⟨f, hf, hfe⟩ f' hf' hw
    cases hl : l.find? fun f => decide (w f.edge_start = w e.edge_start) with
    | none =>
      have := List.find?_eq_none.1 hl f' hf'
      simp [hw] at this
    | some x =>
      rw [hl, Option.some_or, Option.some_inj] at hf
      subst hf
      exact h x (List.mem_of_find?_eq_some hl) hfe
  · intro hno
    have hl : (l.find? fun f => decide (w f.edge_start = w e.edge_start)) = none :=
      List.find?_eq_none.2 fun f hf => by simpa using hno f hf
    exact ⟨e, by rw [hl]; simp, rfl⟩

theorem keptEdges_group {g : List Edge} (hg : ∀ f ∈ g, f.edge_start = e.edge_start) :
    keptEdges w edges g = if Kept w edges e.edge_start then g.map (Edge.rename w) else [] := by
  unfold keptEdges
  split_ifs with hk
  · rw [List.filter_eq_self.2 fun f hf => by simpa [hg f hf] using hk]
  · rw [List.filter_eq_nil_iff.2 fun f hf => by simpa [hg f hf] using hk, List.map_nil]

/-- **One group after the other**: `l` are the edges that have been gone over. -/
theorem foldl_groups (gs : List (List Edge)) (hne : ∀ g ∈ gs, g ≠ [])
    (hconst : ∀ g ∈ gs, ∀ e ∈ g, ∀ f ∈ g, e.edge_start = f.edge_start)
    (hpair : gs.Pairwise fun g h => ∀ e ∈ g, ∀ f ∈ h, e.edge_start ≠ f.edge_start)
    {seen : List ℕ} (hl : ∀ f ∈ l, ∀ e ∈ gs.flatten, f.edge_start ≠ e.edge_start)
    (hseen : ∀ c, c ∈ seen ↔ ∃ f ∈ l, w f.edge_start = c)
    (hacc : ∀ f ∈ acc, f.edge_start ∈ seen) :
    (keptEdges w (l ++ gs.flatten) gs.flatten).foldl addEdge acc = acc ++ outOfPlace w seen gs := by
  induction gs generalizing l seen acc with
  | nil => simp [keptEdges, outOfPlace]
  | cons g gs ih =>
    obtain ⟨e, g, rfl⟩ := List.exists_cons_of_ne_nil (hne g (List.mem_cons_self ..))
    obtain ⟨hg, hpair⟩ := List.pairwise_cons.1 hpair
    have hstart : ∀ f ∈ e :: g, f.edge_start = e.edge_start := fun f hf =>
      hconst _ (List.mem_cons_self ..) f hf e (List.mem_cons_self ..)
    have hbefore : ∀ f ∈ l, f.edge_start ≠ e.edge_start := fun f hf =>
      hl f hf e (by simp)
    have hkept : Kept w (l ++ ((e :: g) :: gs).flatten) e.edge_start ↔ w e.edge_start ∉ seen := by
      rw [List.flatten_cons, List.cons_append, kept_append_iff hbefore, hseen]
      push Not
      rfl
    -- the groups that follow, with this one gone over
    have hassoc : l ++ ((e :: g) :: gs).flatten = (l ++ e :: g) ++ gs.flatten := by
      rw [List.flatten_cons, List.append_assoc]
    have hl' : ∀ f ∈ l ++ e :: g, ∀ e' ∈ gs.flatten, f.edge_start ≠ e'.edge_start := by
      intro f hf e' he'
      rcases List.mem_append.1 hf with hf | hf
      · exact hl f hf e' (by rw [List.flatten_cons]; exact List.mem_append_right _ he')
      · obtain ⟨h, hh, he'⟩ := List.mem_flatten.1 he'
        exact hg h hh f hf e' he'
    have hclasses : ∀ c, (∃ f ∈ l ++ e :: g, w f.edge_start = c) ↔ w e.edge_start = c ∨ c ∈ seen := by
      intro c
      rw [hseen]
      constructor
      · rintro ⟨f, hf, hfc⟩
        rcases List.mem_append.1 hf with hf | hf
        · exact Or.inr ⟨f, hf, hfc⟩
        · exact Or.inl (hstart f hf ▸ hfc)
      · rintro (hc | ⟨f, hf, hfc⟩)
        · exact ⟨e, by simp, hc⟩
        · exact ⟨f, List.mem_append_left _ hf, hfc⟩
    have ih : ∀ {seen : List ℕ} {acc : List Edge},
        (∀ c, c ∈ seen ↔ ∃ f ∈ l ++ e :: g, w f.edge_start = c) →
        (∀ f ∈ acc, f.edge_start ∈ seen) →
        (keptEdges w ((l ++ e :: g) ++ gs.flatten) gs.flatten).foldl addEdge acc =
          acc ++ outOfPlace w seen gs := fun hseen hacc =>
      ih (fun h hh => hne h (List.mem_cons_of_mem _ hh))
        (fun h hh => hconst h (List.mem_cons_of_mem _ hh)) hpair hl' hseen hacc
    rw [List.flatten_cons, Host.keptEdges_append, List.foldl_append, ← List.flatten_cons, hassoc,
      keptEdges_group hstart, ← hassoc, outOfPlace]
    by_cases hs : w e.edge_start ∈ seen
    · rw [if_neg fun hk => hkept.1 hk hs, if_pos hs, hassoc]
      refine ih (fun c => ?_) hacc
      rw [hclasses]
      exact ⟨Or.inr, fun hc => hc.elim (fun hc => hc ▸ hs) id⟩
    · rw [if_pos (hkept.2 hs), if_neg hs, hassoc]
      set group := ((e :: g).map (Edge.rename w)).foldl addEdge [] with hgroup
      have hnew : ∀ f ∈ group, f.edge_start = w e.edge_start := fun f hf => by
        obtain ⟨f', hf', hends⟩ := mem_foldl_addEdge hf
        obtain ⟨f₀, hf₀, rfl⟩ := List.mem_map.1 hf'
        rw [← hends.1, ← hstart f₀ hf₀]
        rfl
      have hfold : ((e :: g).map (Edge.rename w)).foldl addEdge acc = acc ++ group := by
        have hne' : ∀ f ∈ acc, ∀ e' ∈ (e :: g).map (Edge.rename w), f.edge_start ≠ e'.edge_start := by
          intro f hf e' he' hs'
          obtain ⟨f₀, hf₀, rfl⟩ := List.mem_map.1 he'
          have hst : (f₀.rename w).edge_start = w e.edge_start := congrArg w (hstart f₀ hf₀)
          exact hs (hst ▸ hs' ▸ hacc f hf)
        have happ := foldl_addEdge_append (l := []) hne'
        rwa [List.append_nil] at happ
      rw [hfold, ← List.append_assoc]
      refine ih (fun c => ?_) fun f hf => ?_
      · rw [List.mem_cons, hclasses, eq_comm]
      · rcases List.mem_append.1 hf with hf | hf
        · exact List.mem_cons_of_mem _ (hacc f hf)
        · rw [hnew f hf]
          exact List.mem_cons_self ..

/-- Merging all kept edges in one list merges every group on its own. -/
theorem quotientEdges_eq_outOfPlace (hgr : Grouped edges) :
    quotientEdges w edges = outOfPlace w [] (sourceGroups edges) := by
  have hflat : (sourceGroups edges).flatten = edges := List.flatten_splitBy _ _
  have h : (keptEdges w ([] ++ (sourceGroups edges).flatten) (sourceGroups edges).flatten).foldl
      addEdge [] = [] ++ outOfPlace w [] (sourceGroups edges) :=
    foldl_groups (sourceGroups edges) (fun g hg => List.ne_nil_of_mem_splitBy hg)
      (fun g hg e he f hf => sourceGroups_const hg he hf) (sourceGroups_pairwise hgr) (by simp)
      (by simp) (by simp)
  rwa [List.nil_append, hflat, List.nil_append] at h

/-! ## The weights -/

theorem addEdge_modEq (c d : ℕ) :
    edgeWeight (addEdge acc e) c d ≡ edgeWeight acc c d + edgeWeight [e] c d [MOD 2 ^ 64] := by
  induction acc with
  | nil => simp [addEdge, Nat.ModEq.refl]
  | cons f acc ih =>
    rw [addEdge]
    split_ifs with hs
    · rw [edgeWeight_cons, edgeWeight_cons, edgeWeight_cons e, edgeWeight_nil, hs.1, hs.2]
      by_cases hcd : e.edge_start = c ∧ e.edge_end = d
      · simp only [hcd, and_self, if_true, Nat.add_zero]
        have hmod : (f.edge_weight + e.edge_weight) % 2 ^ 64 ≡ f.edge_weight + e.edge_weight
          [MOD 2 ^ 64] := Nat.mod_modEq _ _
        have := hmod.add_right (edgeWeight acc c d)
        rwa [Nat.add_right_comm] at this
      · simp [hcd, Nat.ModEq.refl]
    · rw [edgeWeight_cons, edgeWeight_cons f, Nat.add_assoc]
      exact ih.add_left _

theorem foldl_addEdge_modEq (c d : ℕ) :
    edgeWeight (l.foldl addEdge acc) c d ≡ edgeWeight acc c d + edgeWeight l c d [MOD 2 ^ 64] := by
  induction l generalizing acc with
  | nil => simp [Nat.ModEq.refl]
  | cons e l ih =>
    have hrest : edgeWeight (l.foldl addEdge (addEdge acc e)) c d ≡
        edgeWeight (addEdge acc e) c d + edgeWeight l c d [MOD 2 ^ 64] := ih
    have h := hrest.trans ((addEdge_modEq c d).add_right _)
    rw [Nat.add_assoc, ← edgeWeight_append] at h
    exact h

/-- The kept edges of a class are the edges of its kept source. -/
theorem edgeWeight_keptEdges_eq {u : ℕ} (hu : Kept w edges u) (d : ℕ) :
    edgeWeight (keptEdges w edges l) (w u) d =
      ((l.filter fun e => e.edge_start = u ∧ w e.edge_end = d).map Edge.edge_weight).sum := by
  unfold edgeWeight keptEdges
  rw [List.filter_map, List.map_map, List.filter_filter]
  congr 2
  refine List.filter_congr fun e _ => ?_
  by_cases he : e.edge_start = u
  · simp [Edge.rename, he, hu]
  · have hno : Kept w edges e.edge_start → w e.edge_start ≠ w u := fun hk h => he (hk.inj hu h)
    by_cases hk : Kept w edges e.edge_start
    · simp [Edge.rename, he, hno hk]
    · simp [he, hk]

end Groups

end Rbsc

namespace Rbsc.Host

open Arrays

/-- What the compaction loop makes of the edges, with the new ids below `m`. -/
structure InPlace (node_n m : ℕ) (w : Arr ℕ) (edges : List Edge) : Prop where
  /-- It is the list that is made group by group. -/
  list : compact node_n w edges = outOfPlace w [] (sourceGroups edges)
  /-- No entry is overwritten before it is read. -/
  unread : ∀ i ≤ edges.length, ∀ p, i ≤ p → (compact_loop node_n w edges i).edges p = edgeAt edges p
  /-- The ends of the new edges are those of the kept groups. -/
  ends : ∀ c d, (∃ f ∈ compact node_n w edges, f.edge_start = c ∧ f.edge_end = d) ↔
    ∃ e ∈ edges, Kept w edges e.edge_start ∧ w e.edge_start = c ∧ w e.edge_end = d
  /-- A kept group has its weights, and no other's. -/
  weight : ∀ u, Kept w edges u → ∀ d, edgeWeight (compact node_n w edges) (w u) d ≡
    ((edges.filter fun e => e.edge_start = u ∧ w e.edge_end = d).map Edge.edge_weight).sum
      [MOD 2 ^ 64]
  grouped : Grouped (compact node_n w edges)
  /-- There are no parallel edges. -/
  nodup : ((compact node_n w edges).map fun e => (e.edge_start, e.edge_end)).Nodup
  ids : IdsBelow m (compact node_n w edges)

/-- **The in-place quotient**, for any new names below `m`. -/
theorem inPlace (node_n m : ℕ) (w : Arr ℕ) (edges : List Edge) (hgr : Grouped edges)
    (hids : IdsBelow node_n edges) (hw : ∀ v < node_n, w v < m) : InPlace node_n m w edges where
  list := (compact_eq node_n w hgr).trans (quotientEdges_eq_outOfPlace hgr)
  unread i hi := (compact_loop_spec node_n w hgr i hi).1.unread
  ends c d := by
    rw [compact_eq node_n w hgr]
    have h : (∃ f ∈ quotientEdges w edges, SameEnds f ⟨c, d, 0⟩) ↔
        (∃ f ∈ [], SameEnds f ⟨c, d, 0⟩) ∨ ∃ f ∈ keptEdges w edges edges, SameEnds f ⟨c, d, 0⟩ :=
      exists_sameEnds_foldl
    simp only [List.not_mem_nil, false_and, exists_false, false_or] at h
    refine h.trans ⟨?_, ?_⟩
    · rintro ⟨f, hf, hc, hd⟩
      obtain ⟨e, he, hk, rfl⟩ := mem_keptEdges.1 hf
      exact ⟨e, he, hk, hc, hd⟩
    · rintro ⟨e, he, hk, hc, hd⟩
      exact ⟨e.rename w, mem_keptEdges.2 ⟨e, he, hk, rfl⟩, hc, hd⟩
  weight u hu d := by
    rw [compact_eq node_n w hgr, ← edgeWeight_keptEdges_eq hu]
    have h : edgeWeight (quotientEdges w edges) (w u) d ≡
        edgeWeight [] (w u) d + edgeWeight (keptEdges w edges edges) (w u) d [MOD 2 ^ 64] :=
      foldl_addEdge_modEq (w u) d
    rwa [edgeWeight_nil, Nat.zero_add] at h
  grouped := by
    rw [compact_eq node_n w hgr]
    exact quotientEdges_grouped hgr
  nodup := by
    rw [compact_eq node_n w hgr]
    exact quotientEdges_nodup
  ids := by
    rw [compact_eq node_n w hgr]
    exact quotientEdges_ids hids hw

/-- Three groups of which two are of one class, with edges that become parallel. -/
theorem inPlace_three : InPlace 4 2 ⟨fun v => if v < 2 then 0 else 1⟩
    [⟨0, 2, 1⟩, ⟨0, 3, 2⟩, ⟨1, 2, 3⟩, ⟨2, 0, 1⟩] :=
  inPlace 4 2 _ _ (by decide) (by decide) (by decide)

end Rbsc.Host
