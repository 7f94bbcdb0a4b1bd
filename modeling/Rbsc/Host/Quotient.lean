import Rbsc.Host.Merge

/-!
# The quotient, in place

The compaction loop of `main` overwrites the edge arrays while it reads them.  What it has written
after `i` edges is the out-of-place quotient of these edges, and it has not touched the edges from
`i` on (`CompactInv`); so the list it leaves is `quotientEdges` (`compact_eq`).
-/

namespace Rbsc.Host

open Arrays

/-- The quotient of the first `i` edges. -/
def outEdges (w : ℕ → ℕ) (edges : List Edge) (i : ℕ) : List Edge :=
  (keptEdges w edges (edges.take i)).foldl addEdge []

section Out

variable {w : ℕ → ℕ} {edges : List Edge} {i : ℕ}

theorem outEdges_length : outEdges w edges edges.length = quotientEdges w edges := by
  rw [outEdges, List.take_length]
  rfl

theorem keptEdges_append (l₁ l₂ : List Edge) :
    keptEdges w edges (l₁ ++ l₂) = keptEdges w edges l₁ ++ keptEdges w edges l₂ := by
  simp [keptEdges]

theorem outEdges_succ_of_kept (hi : i < edges.length) (h : Kept w edges (startAt edges i)) :
    outEdges w edges (i + 1) = addEdge (outEdges w edges i) ((edgeAt edges i).rename w) := by
  have : keptEdges w edges [edgeAt edges i] = [(edgeAt edges i).rename w] := by
    have h : Kept w edges (edgeAt edges i).edge_start := h
    simp [keptEdges, h]
  rw [outEdges, take_succ_edges hi, keptEdges_append, this, List.foldl_append]
  rfl

theorem outEdges_succ_of_not_kept (hi : i < edges.length)
    (h : ¬ Kept w edges (startAt edges i)) : outEdges w edges (i + 1) = outEdges w edges i := by
  have : keptEdges w edges [edgeAt edges i] = [] := by
    have h : ¬ Kept w edges (edgeAt edges i).edge_start := h
    simp [keptEdges, h]
  rw [outEdges, take_succ_edges hi, keptEdges_append, this, List.append_nil]
  rfl

end Out

/-! ## When a group is kept -/

section Kept

variable {w : ℕ → ℕ} {edges : List Edge} {i : ℕ}

/-- The edge that decides whether a group of the class is kept. -/
theorem kept_iff_forall (hgr : Grouped edges) (hi : i < edges.length)
    (hb : i = 0 ∨ startAt edges i ≠ startAt edges (i - 1)) :
    Kept w edges (startAt edges i) ↔ ∀ j < i, w (startAt edges j) ≠ w (startAt edges i) := by
  have hno := hgr.not_isSource_take hi hb
  rw [isSource_take hi.le] at hno
  constructor
  · intro hk j hj hw
    -- the first edge of the class comes before `i`, and has another source
    obtain ⟨e, hf, he⟩ := Option.map_eq_some_iff.1 hk
    obtain ⟨-, k, hkl, hke, hmin⟩ := List.find?_eq_some_iff_getElem.1 hf
    have hkj : k ≤ j := by
      by_contra hlt
      have := hmin j (by omega)
      rw [startAt_eq (by omega : j < edges.length)] at hw
      simp [hw] at this
    exact hno ⟨k, by omega, by rw [startAt_eq hkl, hke, he]⟩
  · intro hall
    have hf : (edges.find? fun e => w e.edge_start = w (startAt edges i)) = some edges[i] := by
      refine List.find?_eq_some_iff_getElem.2 ⟨by simp [startAt_eq hi], i, hi, rfl, fun j hj => ?_⟩
      have := hall j hj
      rw [startAt_eq (by omega : j < edges.length)] at this
      simpa using this
    rw [Kept, hf, Option.map_some, startAt_eq hi]

end Kept

/-! ## The loop -/

/-- The variables are set for the group of `u`. -/
structure InGroup (w : ℕ → ℕ) (edges : List Edge) (u : ℕ) (s : Compact) : Prop where
  current : s.current_node = u
  counting : s.counting = true ↔ Kept w edges u
  first_le : s.first_edge_i ≤ s.new_edge_n
  /-- The entries from `first_edge_i` on are those of the class of `u`. -/
  first : s.counting = true → ∀ p < s.new_edge_n,
    s.first_edge_i ≤ p ↔ (s.edges p).edge_start = w u
  /-- Of these, `weight_indexes` knows the one with a given end. -/
  indexed : s.counting = true → ∀ p < s.new_edge_n, s.first_edge_i ≤ p →
    s.weight_indexes (s.edges p).edge_end = p

/-- The loop has gone over the first `i` edges. -/
structure CompactInv (w : ℕ → ℕ) (edges : List Edge) (i : ℕ) (s : Compact) : Prop where
  le : s.new_edge_n ≤ i
  /-- The edges from `i` on are untouched. -/
  unread : ∀ p, i ≤ p → s.edges p = edgeAt edges p
  /-- What is written is the quotient of the edges before `i`. -/
  out : toList s.new_edge_n s.edges = outEdges w edges i
  considered : ∀ c, s.considered_nodes c = true ↔ ∃ j < i, w (startAt edges j) = c
  /-- `weight_indexes` holds the sentinel or an entry with this end. -/
  index : ∀ d, s.weight_indexes d = edges.length ∨
    s.weight_indexes d < s.new_edge_n ∧ (s.edges (s.weight_indexes d)).edge_end = d

section Step

variable {w : Arr ℕ} {edges : List Edge} {i : ℕ} {s : Compact}

theorem mem_outEdges_start {e : Edge} (hi : i ≤ edges.length) (he : e ∈ outEdges w edges i) :
    ∃ j < i, w (startAt edges j) = e.edge_start := by
  obtain ⟨e', he', hs⟩ := mem_foldl_addEdge he
  obtain ⟨e₀, he₀, -, rfl⟩ := mem_keptEdges.1 he'
  obtain ⟨j, hj, hjs⟩ := (isSource_take hi).1 ⟨e₀, he₀, rfl⟩
  exact ⟨j, hj, by rw [hjs]; exact hs.1⟩

/-- **The start of a turn**: the variables are set for the group of the edge. -/
theorem group_step_spec (hgr : Grouped edges) (hi : i < edges.length)
    (h : CompactInv w edges i s) (hg : 0 < i → InGroup w edges (startAt edges (i - 1)) s) :
    (group_step w s i).edges = s.edges ∧ (group_step w s i).weight_indexes = s.weight_indexes ∧
      (group_step w s i).new_edge_n = s.new_edge_n ∧
      (∀ c, (group_step w s i).considered_nodes c = true ↔
        ∃ j < i + 1, w (startAt edges j) = c) ∧
      InGroup w edges (startAt edges i) (group_step w s i) := by
  have hread : (s.edges i).edge_start = startAt edges i := by rw [h.unread i le_rfl]; rfl
  by_cases hb : i = 0 ∨ startAt edges i ≠ startAt edges (i - 1)
  · -- a new group
    have hcond : i = 0 ∨ (s.edges i).edge_start ≠ s.current_node := by
      rcases hb with hb | hb
      · exact Or.inl hb
      · refine (Nat.eq_zero_or_pos i).imp id fun hpos => ?_
        rw [hread, (hg hpos).current]
        exact hb
    have hs : group_step w s i = { s with
        current_node := startAt edges i
        counting := !s.considered_nodes (w (startAt edges i))
        first_edge_i := s.new_edge_n
        considered_nodes := s.considered_nodes.set (w (startAt edges i)) true } := by
      rw [group_step]
      rw [if_pos hcond, hread]
    have hkept := kept_iff_forall (w := w) hgr hi hb
    have hcount : s.considered_nodes (w (startAt edges i)) = false ↔
        Kept w edges (startAt edges i) := by
      rw [hkept, ← Bool.not_eq_true, h.considered]
      push Not
      rfl
    rw [hs]
    refine ⟨rfl, rfl, rfl, fun c => ?_, rfl, ?_, le_rfl, fun hc p hp => ?_,
      fun _ p hp hfp => ?_⟩
    · change s.considered_nodes.set _ _ c = true ↔ _
      rw [Arr.set_apply]
      by_cases hc : c = w (startAt edges i)
      · rw [if_pos hc]
        exact ⟨fun _ => ⟨i, by omega, hc.symm⟩, fun _ => rfl⟩
      · rw [if_neg hc, h.considered]
        constructor
        · rintro ⟨j, hj, hjc⟩
          exact ⟨j, by omega, hjc⟩
        · rintro ⟨j, hj, hjc⟩
          refine ⟨j, ?_, hjc⟩
          have : j ≠ i := fun hji => hc (hji ▸ hjc.symm)
          omega
    · change (!s.considered_nodes _) = true ↔ _
      rw [Bool.not_eq_true', hcount]
    · -- nothing has been written for a class that comes for the first time
      have hc : (!s.considered_nodes (w (startAt edges i))) = true := hc
      have hp : p < s.new_edge_n := hp
      have hk := hkept.1 (hcount.1 (by simpa using hc))
      refine ⟨fun hle => ?_, fun hst => ?_⟩
      · have : s.new_edge_n ≤ p := hle
        omega
      · exfalso
        have hmem : s.edges p ∈ outEdges w edges i := by
          rw [← h.out]
          exact mem_toList.2 ⟨p, hp, rfl⟩
        obtain ⟨j, hj, hjs⟩ := mem_outEdges_start hi.le hmem
        exact hk j hj (hjs.trans hst)
    · have hp : p < s.new_edge_n := hp
      have hfp : s.new_edge_n ≤ p := hfp
      omega
  · -- the group goes on
    push Not at hb
    have hpos : 0 < i := by omega
    have hg := hg hpos
    have hs : group_step w s i = s := by
      rw [group_step]
      rw [if_neg]
      rw [hread, hg.current, hb.2]
      simp [hb.1]
    rw [hs, hb.2]
    refine ⟨rfl, rfl, rfl, fun c => ?_, hg⟩
    rw [h.considered]
    constructor
    · rintro ⟨j, hj, hjc⟩
      exact ⟨j, by omega, hjc⟩
    · rintro ⟨j, hj, hjc⟩
      rcases Nat.lt_succ_iff_lt_or_eq.1 hj with hj | rfl
      · exact ⟨j, hj, hjc⟩
      · exact ⟨j - 1, by omega, by rw [← hb.2, hjc]⟩

theorem toList_set (n k : ℕ) (a : Arr Edge) (x : Edge) :
    toList n (a.set k x) = (toList n a).set k x := by
  refine List.ext_getElem (by simp) fun j hj _ => ?_
  rw [getElem_toList, List.getElem_set, Arr.set_apply]
  by_cases hjk : j = k
  · simp [hjk]
  · rw [if_neg hjk, if_neg (Ne.symm hjk), getElem_toList]

theorem toList_succ_set {n : ℕ} (a a' : Arr Edge) (x : Edge) (h : ∀ p < n, a' p = a p)
    (hx : a' n = x) : toList (n + 1) a' = toList n a ++ [x] := by
  unfold toList
  rw [List.range_succ, List.map_append, List.map_singleton, hx]
  congr 1
  exact List.map_congr_left fun p hp => h p (List.mem_range.1 hp)

/-- The variables in a turn, at an edge of a group that counts. -/
structure Putting (w : ℕ → ℕ) (edges : List Edge) (i : ℕ) (s : Compact) : Prop where
  lt : i < edges.length
  le : s.new_edge_n ≤ i
  unread : ∀ p, i ≤ p → s.edges p = edgeAt edges p
  out : toList s.new_edge_n s.edges = outEdges w edges i
  considered : ∀ c, s.considered_nodes c = true ↔ ∃ j < i + 1, w (startAt edges j) = c
  index : ∀ d, s.weight_indexes d = edges.length ∨
    s.weight_indexes d < s.new_edge_n ∧ (s.edges (s.weight_indexes d)).edge_end = d
  group : InGroup w edges (startAt edges i) s
  counting : s.counting = true

/-- An entry with the ends of the edge is the one that is indexed. -/
theorem Putting.indexed (h : Putting w edges i s) {p : ℕ} (hp : p < s.new_edge_n)
    (hsame : SameEnds (s.edges p) ((edgeAt edges i).rename w)) :
    s.first_edge_i ≤ p ∧ s.weight_indexes ((edgeAt edges i).rename w).edge_end = p := by
  obtain ⟨hstart, hend⟩ := hsame
  have hfp := (h.group.first h.counting p hp).2 hstart
  have hip := h.group.indexed h.counting p hp hfp
  rw [hend] at hip
  exact ⟨hfp, hip⟩

/-- The first edge of the group into its class is written. -/
theorem Putting.put_new (h : Putting w edges i s)
    (hnone : s.weight_indexes ((edgeAt edges i).rename w).edge_end = edges.length ∨
      s.weight_indexes ((edgeAt edges i).rename w).edge_end < s.first_edge_i) :
    let s' := put_edge edges.length s i ((edgeAt edges i).rename w)
    CompactInv w edges (i + 1) s' ∧ InGroup w edges (startAt edges i) s' := by
  obtain ⟨hi, hle, hunread, hout, hcons, hindex, hg, hc⟩ := id h
  have hnext := outEdges_succ_of_kept hi (hg.counting.1 hc)
  have hno : ∀ p < s.new_edge_n, ¬ SameEnds (s.edges p) ((edgeAt edges i).rename w) :=
    fun p hp hsame => by
      obtain ⟨hfp, hip⟩ := h.indexed hp hsame
      omega
  set e := (edgeAt edges i).rename w with he
  have hst : e.edge_start = w (startAt edges i) := rfl
  have hfirst := hg.first_le
  have hadd : outEdges w edges (i + 1) = outEdges w edges i ++ [e] := by
    rw [hnext, addEdge_of_forall_not]
    intro f hf
    rw [← hout] at hf
    obtain ⟨p, hp, rfl⟩ := mem_toList.1 hf
    exact hno p hp
  unfold put_edge
  dsimp only
  rw [if_pos hnone]
  set edges' := (s.edges.set i e).set s.new_edge_n e with hedges'
  have hold : ∀ p < s.new_edge_n, edges' p = s.edges p := fun p hp => by
    rw [hedges', Arr.set_of_ne _ _ (by omega), Arr.set_of_ne _ _ (by omega)]
  have hnewe : edges' s.new_edge_n = e := Arr.set_self _ _ _
  refine ⟨⟨by dsimp only; omega, fun p hp => ?_, ?_, hcons, fun d => ?_⟩, hg.current, hg.counting,
    by dsimp only; omega, fun _ p hp => ?_, fun _ p hp hfp => ?_⟩ <;> dsimp only at *
  · rw [hedges', Arr.set_of_ne _ _ (by omega), Arr.set_of_ne _ _ (by omega),
      hunread p (by omega)]
  · rw [hadd, ← hout]
    exact toList_succ_set _ _ _ hold hnewe
  · rw [Arr.set_apply]
    by_cases hd : d = e.edge_end
    · rw [if_pos hd, hnewe]
      exact Or.inr ⟨by omega, hd.symm⟩
    · rw [if_neg hd]
      rcases hindex d with hd' | ⟨hlt, hend⟩
      · exact Or.inl hd'
      · exact Or.inr ⟨by omega, by rw [hold _ hlt, hend]⟩
  · rcases Nat.lt_succ_iff_lt_or_eq.1 hp with hp | rfl
    · rw [hold p hp]
      exact hg.first hc p hp
    · rw [hnewe]
      exact ⟨fun _ => hst, fun _ => hfirst⟩
  · rw [Arr.set_apply]
    rcases Nat.lt_succ_iff_lt_or_eq.1 hp with hp | rfl
    · rw [hold p hp]
      have hne : (s.edges p).edge_end ≠ e.edge_end := fun hend =>
        hno p hp ⟨((hg.first hc p hp).1 hfp).trans hst.symm, hend⟩
      rw [if_neg hne]
      exact hg.indexed hc p hp hfp
    · rw [hnewe, if_pos rfl]

/-- A later one is merged with the first. -/
theorem Putting.put_merged (h : Putting w edges i s)
    (hsome : ¬ (s.weight_indexes ((edgeAt edges i).rename w).edge_end = edges.length ∨
      s.weight_indexes ((edgeAt edges i).rename w).edge_end < s.first_edge_i)) :
    let s' := put_edge edges.length s i ((edgeAt edges i).rename w)
    CompactInv w edges (i + 1) s' ∧ InGroup w edges (startAt edges i) s' := by
  obtain ⟨hi, hle, hunread, hout, hcons, hindex, hg, hc⟩ := id h
  have hnext := outEdges_succ_of_kept hi (hg.counting.1 hc)
  have hindexed := fun {p} => h.indexed (p := p)
  set e := (edgeAt edges i).rename w with he
  have hst : e.edge_start = w (startAt edges i) := rfl
  unfold put_edge
  dsimp only
  rw [if_neg hsome]
  push Not at hsome
  obtain ⟨hklt, hkend⟩ := (hindex e.edge_end).resolve_left hsome.1
  set k := s.weight_indexes e.edge_end
  have hki : (s.edges.set i e) k = s.edges k := Arr.set_of_ne _ _ (by omega)
  rw [hki]
  set f : Edge := { s.edges k with
    edge_weight := ((s.edges k).edge_weight + e.edge_weight) % 2 ^ 64 } with hf
  have hkst : (s.edges k).edge_start = w (startAt edges i) := (hg.first hc k hklt).1 hsome.2
  -- the weight changes, and the ends stay
  have hends : ∀ p, p < s.new_edge_n → (((s.edges.set i e).set k f) p).edge_start =
      (s.edges p).edge_start ∧ (((s.edges.set i e).set k f) p).edge_end =
        (s.edges p).edge_end := fun p hp => by
    by_cases hpk : p = k
    · rw [hpk, Arr.set_self]
      exact ⟨rfl, rfl⟩
    · rw [Arr.set_of_ne _ _ hpk, Arr.set_of_ne _ _ (by omega)]
      exact ⟨rfl, rfl⟩
  have hlist : toList s.new_edge_n ((s.edges.set i e).set k f) =
      (toList s.new_edge_n s.edges).set k f := by
    rw [toList_set]
    congr 1
    exact toList_congr fun p hp => Arr.set_of_ne _ _ (by omega)
  refine ⟨⟨by dsimp only; omega, fun p hp => ?_, ?_, hcons, fun d => ?_⟩, hg.current, hg.counting,
    hg.first_le, fun _ p hp => ?_, fun _ p hp hfp => ?_⟩ <;> dsimp only at *
  · rw [Arr.set_of_ne _ _ (by omega), Arr.set_of_ne _ _ (by omega), hunread p (by omega)]
  · rw [hlist, hnext, ← hout]
    symm
    have hkl : k < (toList s.new_edge_n s.edges).length := by simpa using hklt
    have hget : (toList s.new_edge_n s.edges)[k] = s.edges k := getElem_toList _ _
    rw [addEdge_of_index hkl (by rw [hget]; exact ⟨hkst, hkend⟩) fun j hj _ => ?_, hget]
    rw [getElem_toList]
    intro hsame
    obtain ⟨-, hjk⟩ := hindexed (by omega) hsame
    exact hj.ne' hjk
  · refine (hindex d).imp id fun hd => ⟨hd.1, ?_⟩
    rw [(hends _ hd.1).2, hd.2]
  · rw [(hends p hp).1]
    exact hg.first hc p hp
  · rw [(hends p hp).2]
    exact hg.indexed hc p hp hfp

/-- An edge of a group that counts. -/
theorem Putting.put_edge (h : Putting w edges i s) :
    let s' := put_edge edges.length s i ((edgeAt edges i).rename w)
    CompactInv w edges (i + 1) s' ∧ InGroup w edges (startAt edges i) s' := by
  by_cases hnone : s.weight_indexes ((edgeAt edges i).rename w).edge_end = edges.length ∨
      s.weight_indexes ((edgeAt edges i).rename w).edge_end < s.first_edge_i
  · exact h.put_new hnone
  · exact h.put_merged hnone

/-- **One edge.** -/
theorem compact_step_spec (hgr : Grouped edges) (hi : i < edges.length)
    (h : CompactInv w edges i s) (hg : 0 < i → InGroup w edges (startAt edges (i - 1)) s) :
    CompactInv w edges (i + 1) (compact_step edges.length w s i) ∧
      InGroup w edges (startAt edges i) (compact_step edges.length w s i) := by
  obtain ⟨hedges, hindex, hnew, hcons, hgroup⟩ := group_step_spec hgr hi h hg
  have hle := h.le
  unfold compact_step
  set t := group_step w s i with ht
  dsimp only
  by_cases hc : t.counting = true
  · have hread : t.edges i = edgeAt edges i := by rw [hedges]; exact h.unread i le_rfl
    rw [if_pos hc, hread]
    refine Putting.put_edge ⟨hi, by omega, fun p hp => ?_, ?_, hcons, fun d => ?_, hgroup, hc⟩
    · rw [hedges]; exact h.unread p hp
    · rw [hnew, hedges, h.out]
    · rw [hindex, hnew, hedges]; exact h.index d
  · -- a group of a class that has one already
    rw [if_neg hc]
    have hk : ¬ Kept w edges (startAt edges i) := fun hk => hc (hgroup.counting.2 hk)
    refine ⟨⟨by omega, fun p hp => ?_, ?_, hcons, fun d => ?_⟩, hgroup⟩
    · rw [hedges, h.unread p (by omega)]
    · rw [hnew, hedges, h.out, outEdges_succ_of_not_kept hi hk]
    · rw [hindex, hnew, hedges]
      exact h.index d

end Step

theorem compactInv_init (node_n : ℕ) (w : ℕ → ℕ) (edges : List Edge) :
    CompactInv w edges 0 (compact_init node_n edges) := by
  have hconst : ∀ {α : Type} (x : α) (i : ℕ), fill node_n (fun _ => x) (.const x) i = x := by
    intro α x i
    by_cases hi : i < node_n
    · exact fill_of_lt _ _ hi
    · exact fill_of_le _ _ (by omega)
  refine ⟨le_rfl, fun _ _ => rfl, rfl, fun c => ?_, fun d => Or.inl (hconst _ d)⟩
  change fill node_n (fun _ => false) (.const false) c = true ↔ _
  rw [hconst]
  simp

/-- **The loop**, up to edge `i`. -/
theorem compact_loop_spec (node_n : ℕ) (w : Arr ℕ) {edges : List Edge} (hgr : Grouped edges) :
    ∀ i ≤ edges.length, CompactInv w edges i (compact_loop node_n w edges i) ∧
      (0 < i → InGroup w edges (startAt edges (i - 1)) (compact_loop node_n w edges i)) := by
  intro i
  induction i with
  | zero => exact fun _ => ⟨compactInv_init node_n w edges, fun h => by omega⟩
  | succ i ih =>
    intro hi
    obtain ⟨hinv, hg⟩ := ih (by omega)
    have hstep := compact_step_spec hgr (by omega) hinv hg
    have : compact_loop node_n w edges (i + 1) =
        compact_step edges.length w (compact_loop node_n w edges i) i := by
      rw [compact_loop, List.range_succ, List.foldl_append]
      rfl
    rw [this]
    exact ⟨hstep.1, fun _ => hstep.2⟩

/-- **The in-place quotient is the out-of-place one.** -/
theorem compact_eq (node_n : ℕ) (w : Arr ℕ) {edges : List Edge} (hgr : Grouped edges) :
    compact node_n w edges = quotientEdges w edges := by
  rw [compact, (compact_loop_spec node_n w hgr edges.length le_rfl).1.out, outEdges_length]

end Rbsc.Host
