import Rbsc.Rsc.Model

/-!
# One round of `rsc`

What a round does to the labels, whatever the order that `std::sort` gives to ties: the new label of
a node is the rank of its sum among the sums of all nodes (`round_w`), and the count is the number
of distinct sums (`round_new_node_n`).

* `spmv_lastGroups`: `spmv` leaves the hash sum of every source in `z`, of all its edges when they
  are grouped (`spmv_apply`);
* `sort_indexes_spec`: the sorted indexes are a permutation, in the order of the sums;
* `sum_apply`: `sum` leaves the number of changes before each place.
-/

namespace Rbsc.Rsc

open Arrays DenseRank Lumping

/-! ## `spmv` -/

section Spmv

variable (h : Word → Word) (edges : List Edge) (w z : Arr Word) (it : Word)

theorem spmv_step_apply (i v : ℕ) :
    spmv_step h edges w it z i v =
      if v = startAt edges i then
        (if i = 0 ∨ startAt edges i ≠ startAt edges (i - 1) then 0 else z v) +
          h (w (edgeAt edges i).edge_end + it) * ((edgeAt edges i).edge_weight : Word)
      else z v := by
  unfold spmv_step
  change Arr.set _ (startAt edges i) _ v = _
  rw [Arr.set_apply]
  by_cases hv : v = startAt edges i
  · subst hv
    rw [if_pos rfl, if_pos rfl]
    change (if i = 0 ∨ startAt edges i ≠ startAt edges (i - 1) then z.set (startAt edges i) 0
      else z) (startAt edges i) + _ = _
    split_ifs
    · rw [Arr.set_self]
    · rfl
  · rw [if_neg hv, if_neg hv]
    change (if i = 0 ∨ startAt edges i ≠ startAt edges (i - 1) then z.set (startAt edges i) 0
      else z) v = _
    split_ifs
    · exact Arr.set_of_ne _ _ hv
    · rfl

/-- Of the first `m` edges those that count: of every source its last group, as `spmv` starts its
sum anew at every group. -/
def lastGroups (edges : List Edge) : ℕ → List Edge
  | 0 => []
  | m + 1 =>
    (if m = 0 ∨ startAt edges m ≠ startAt edges (m - 1) then
      (lastGroups edges m).filter fun e => e.edge_start ≠ startAt edges m
    else lastGroups edges m) ++ [edgeAt edges m]

/-- With grouped sources all edges count. -/
theorem lastGroups_of_grouped (hgr : Grouped edges) : ∀ m ≤ edges.length,
    lastGroups edges m = edges.take m
  | 0, _ => rfl
  | m + 1, hm => by
    rw [lastGroups, lastGroups_of_grouped hgr m (by omega), take_succ_edges (by omega)]
    congr 1
    split_ifs with hb
    · refine List.filter_eq_self.2 fun e he => decide_eq_true fun hs => ?_
      exact hgr.not_isSource_take (by omega) hb ⟨e, he, hs⟩
    · rfl

theorem mem_lastGroups {e : Edge} : ∀ {m : ℕ}, m ≤ edges.length → e ∈ lastGroups edges m →
    e ∈ edges
  | 0, _, he => absurd he List.not_mem_nil
  | m + 1, hm, he => by
    rw [lastGroups, List.mem_append, List.mem_singleton] at he
    rcases he with he | rfl
    · refine mem_lastGroups (m := m) (by omega) ?_
      split_ifs at he
      · exact (List.mem_filter.1 he).1
      · exact he
    · rw [edgeAt_eq (by omega)]
      exact List.getElem_mem _

/-- The entries of `z` after the first `m` edges. -/
theorem spmv_take : ∀ m ≤ edges.length, ∀ v,
    (List.range m).foldl (spmv_step h edges w it) z v =
      if IsSource (edges.take m) v then hashSum (lastGroups edges m) (fun y => h (w y + it)) v
      else z v := by
  intro m
  induction m with
  | zero =>
    intro _ v
    rw [if_neg (by rintro ⟨e, he, -⟩; simp at he)]
    rfl
  | succ m ih =>
    intro hm v
    have hlast : hashSum [edgeAt edges m] (fun y => h (w y + it)) v =
        if v = startAt edges m then
          h (w (edgeAt edges m).edge_end + it) * ((edgeAt edges m).edge_weight : Word) else 0 := by
      rw [hashSum_cons, hashSum_nil, add_zero]
      exact if_congr eq_comm rfl rfl
    rw [List.range_succ, List.foldl_append, List.foldl_cons, List.foldl_nil, spmv_step_apply,
      ih (by omega), take_succ_edges (by omega), lastGroups, hashSum_append, hlast]
    by_cases hv : v = startAt edges m
    · have hsrc : IsSource (edges.take m ++ [edgeAt edges m]) v :=
        ⟨edgeAt edges m, by simp, hv.symm⟩
      rw [if_pos hv, if_pos hv, if_pos hsrc]
      by_cases hb : m = 0 ∨ startAt edges m ≠ startAt edges (m - 1)
      · -- a new group: what was added before does not count
        have hno : ¬ IsSource ((lastGroups edges m).filter fun e => e.edge_start ≠ startAt edges m)
            v := by
          rintro ⟨e, he, rfl⟩
          exact of_decide_eq_true (List.mem_filter.1 he).2 hv
        rw [if_pos hb, if_pos hb, hashSum_eq_zero hno]
      · have hyes : IsSource (edges.take m) v := by
          rw [isSource_take (by omega)]
          push Not at hb
          exact ⟨m - 1, by omega, by rw [hv, hb.2]⟩
        rw [if_neg hb, if_neg hb, if_pos hyes]
    · have hsrc : IsSource (edges.take m ++ [edgeAt edges m]) v ↔ IsSource (edges.take m) v := by
        constructor
        · rintro ⟨e, he, rfl⟩
          rcases List.mem_append.1 he with he | he
          · exact ⟨e, he, rfl⟩
          · exact absurd (List.mem_singleton.1 he ▸ rfl) hv
        · rintro ⟨e, he, rfl⟩
          exact ⟨e, List.mem_append_left _ he, rfl⟩
      -- the edges of other sources are kept
      have hkeep : hashSum (if m = 0 ∨ startAt edges m ≠ startAt edges (m - 1) then
          (lastGroups edges m).filter fun e => e.edge_start ≠ startAt edges m
          else lastGroups edges m) (fun y => h (w y + it)) v =
            hashSum (lastGroups edges m) (fun y => h (w y + it)) v := by
        split_ifs
        · rw [hashSum, List.filter_filter, hashSum]
          congr 2
          refine List.filter_congr fun e _ => ?_
          rw [Bool.and_eq_left_iff_imp]
          intro he
          exact decide_eq_true fun hs => hv ((of_decide_eq_true he).symm.trans hs)
        · rfl
      simp only [hsrc, if_neg hv, add_zero, hkeep]

/-- **The sums of `spmv`.**  A node with edges gets the hash sum of those that count; the other
entries of `z` stay. -/
theorem spmv_lastGroups (v : ℕ) :
    spmv h edges w z it v =
      if IsSource edges v then hashSum (lastGroups edges edges.length) (fun y => h (w y + it)) v
      else z v := by
  have := spmv_take h edges w z it edges.length le_rfl v
  rwa [List.take_length] at this

/-- With grouped sources it is the hash sum of all edges. -/
theorem spmv_apply (hgr : Grouped edges) (v : ℕ) :
    spmv h edges w z it v =
      if IsSource edges v then hashSum edges (fun y => h (w y + it)) v else z v := by
  rw [spmv_lastGroups, lastGroups_of_grouped edges hgr edges.length le_rfl, List.take_length]

end Spmv

/-! ## The sort -/

theorem toInt_of_lt {i : ℕ} (h : i < 2 ^ 31) : toInt i = i := by
  have hmod : i % 2 ^ 32 = i := Nat.mod_eq_of_lt (by omega)
  rw [toInt, BitVec.toInt_eq_toNat_of_lt (by rw [BitVec.toNat_ofNat, hmod]; omega),
    BitVec.toNat_ofNat, hmod]

theorem atInt_toInt (a : Arr Word) {i : ℕ} (h : i < 2 ^ 31) : atInt a (toInt i) = a i := by
  rw [toInt_of_lt h, atInt, if_pos (by omega), Int.toNat_natCast]

/-- The pair of words that the comparator reads at an index. -/
def cmpKey (w z : Arr Word) (i : ℕ) : ℕ ×ₗ ℕ :=
  toLex ((atInt z (toInt i)).toNat, (atInt w (toInt i)).toNat)

theorem comparator_iff (w z : Arr Word) (i k : ℕ) :
    comparator w z i k = true ↔ cmpKey w z i < cmpKey w z k := by
  simp [comparator, cmpKey, Prod.Lex.toLex_lt_toLex, BitVec.lt_def, BitVec.toNat_inj]

instance comparator_strictWeakOrder (w z : Arr Word) :
    IsStrictWeakOrder ℕ fun a b => comparator w z a b = true where
  irrefl a h := lt_irrefl _ ((comparator_iff w z a a).1 h)
  trans a b c hab hbc := by
    rw [comparator_iff] at *
    exact hab.trans hbc
  incomp_trans a b c hab hbc := by
    simp only [comparator_iff, not_lt] at *
    exact ⟨hbc.1.trans hab.1, hab.2.trans hbc.2⟩

/-- The word of a node as a sort key. -/
def wordKey (z : Arr Word) (v : ℕ) : ℕ := (z v).toNat

section Sorting

variable (srt : StdSort) (w z : Arr Word) (indexes : Arr ℕ) {n : ℕ}

theorem toList_make_indexes (indexes : Arr ℕ) (n : ℕ) :
    toList n (make_indexes indexes n) = List.range n := by
  refine List.ext_getElem (by simp) fun i hi _ => ?_
  rw [getElem_toList, make_indexes, fill_of_lt _ _ (by simpa using hi)]
  simp

/-- The sorted index list. -/
theorem sort_indexes_eq {i : ℕ} (hi : i < n) :
    sort_indexes srt w z (make_indexes indexes n) n i =
      (srt.sort (comparator w z) (List.range n)).getD i 0 := by
  have hlen : (srt.sort (comparator w z) (List.range n)).length = n := by
    simpa using (srt.perm (comparator w z) (List.range n)).length_eq
  rw [sort_indexes, toList_make_indexes, store_of_lt _ (by omega),
    List.getD_eq_getElem _ _ (by omega)]

theorem sort_indexes_isPerm : IsPerm n (sort_indexes srt w z (make_indexes indexes n) n) := by
  have h := IsPerm.of_perm (srt.perm (comparator w z) (List.range n))
  refine ⟨fun i hi => ?_, fun i hi j hj hij => ?_⟩
  · rw [sort_indexes_eq srt w z indexes hi]
    exact h.maps i hi
  · rw [sort_indexes_eq srt w z indexes hi, sort_indexes_eq srt w z indexes hj] at hij
    exact h.inj i hi j hj hij

/-- The sums increase along the sorted indexes. -/
theorem sort_indexes_sorted (hn : n ≤ 2 ^ 31) :
    ∀ i j, i ≤ j → j < n →
      wordKey z (sort_indexes srt w z (make_indexes indexes n) n i) ≤
        wordKey z (sort_indexes srt w z (make_indexes indexes n) n j) := by
  intro i j hij hj
  rcases hij.lt_or_eq with hij | rfl
  swap; · exact le_rfl
  have hp := sort_indexes_isPerm srt w z indexes (n := n)
  have hlen : (srt.sort (comparator w z) (List.range n)).length = n := by
    simpa using (srt.perm (comparator w z) (List.range n)).length_eq
  have hle := (List.pairwise_iff_getElem.1 (srt.sorted (comparator w z) (List.range n)))
    i j (by omega) (by omega) hij
  have hgeti := List.getD_eq_getElem (srt.sort (comparator w z) (List.range n)) 0
    (n := i) (by omega)
  have hgetj := List.getD_eq_getElem (srt.sort (comparator w z) (List.range n)) 0
    (n := j) (by omega)
  rw [← hgeti, ← hgetj, ← sort_indexes_eq srt w z indexes (show i < n by omega),
    ← sort_indexes_eq srt w z indexes hj] at hle
  have hle := Bool.eq_false_iff.1 hle
  rw [ne_eq, comparator_iff, not_lt, cmpKey, cmpKey,
    atInt_toInt z (by have := hp.maps i (by omega); omega),
    atInt_toInt z (by have := hp.maps j hj; omega), Prod.Lex.toLex_le_toLex] at hle
  rcases hle with h | ⟨h, -⟩
  · exact h.le
  · exact h.le

end Sorting

/-! ## `sum` and the labels -/

/-- The variables of `sum` after place `m`. -/
theorem sum_foldl (s_z : Arr Word) (m : ℕ) (hm : m < 2 ^ 32) :
    let st := (List.range' 1 m).foldl sum_step
      { s_z := s_z.set 0 0, prec := s_z 0, cur := 0 }
    (∀ i, st.s_z i = if i ≤ m then (changes (wordKey s_z) i : Word) else s_z i) ∧
      st.prec = s_z m ∧ st.cur = changes (wordKey s_z) m := by
  induction m with
  | zero =>
    refine ⟨fun i => ?_, rfl, rfl⟩
    rw [List.range'_zero, List.foldl_nil, Arr.set_apply]
    by_cases hi : i = 0
    · subst hi; rfl
    · rw [if_neg hi, if_neg (by omega)]
  | succ m ih =>
    obtain ⟨hs, hp, hc⟩ := ih (by omega)
    rw [List.range'_1_concat, List.foldl_append, List.foldl_cons, List.foldl_nil]
    set st := (List.range' 1 m).foldl sum_step { s_z := s_z.set 0 0, prec := s_z 0, cur := 0 }
    have hread : st.s_z (1 + m) = s_z (m + 1) := by rw [hs, if_neg (by omega), Nat.add_comm]
    have hcur : (if st.s_z (1 + m) ≠ st.prec then nodeT (st.cur + 1) else st.cur) =
        changes (wordKey s_z) (m + 1) := by
      rw [hread, hp, hc, changes]
      have := changes_le (wordKey s_z) m
      rw [nodeT_of_lt (by omega)]
      simp only [wordKey, ne_eq, BitVec.toNat_inj]
      split_ifs <;> rfl
    refine ⟨fun i => ?_, ?_, ?_⟩
    · change (st.s_z.set (1 + m) _) i = _
      rw [Arr.set_apply, hcur, Nat.add_comm 1 m]
      by_cases hi : i = m + 1
      · rw [if_pos hi, if_pos (by omega), hi]
      · rw [if_neg hi, hs]
        by_cases him : i ≤ m
        · rw [if_pos him, if_pos (by omega)]
        · rw [if_neg him, if_neg (by omega)]
    · exact hread
    · exact hcur

theorem sum_apply (s_z : Arr Word) {n i : ℕ} (hn : n ≤ 2 ^ 32) (hi : i < n) :
    sum s_z n i = (changes (wordKey s_z) i : Word) := by
  have := (sum_foldl s_z (n - 1) (by omega)).1 i
  rw [if_pos (by omega)] at this
  exact this

theorem changes_congr {κ : Type*} [LinearOrder κ] {a b : ℕ → κ} :
    ∀ {i : ℕ}, (∀ j ≤ i, a j = b j) → changes a i = changes b i
  | 0, _ => rfl
  | i + 1, h => by
    rw [changes, changes, changes_congr fun j hj => h j (by omega), h i (by omega),
      h (i + 1) le_rfl]

/-! ## The round -/

section RoundSpec

variable (h : Word → Word) (srt : StdSort) (g : Graph) (s : State)

/-- The sums of a round. -/
abbrev sums (h : Word → Word) (g : Graph) (s : State) : Arr Word := spmv h g.edges s.w s.z s.it

@[simp] theorem round_z : (round h srt g s).z = sums h g s := rfl

@[simp] theorem round_it : (round h srt g s).it = s.it + 1 := rfl

@[simp] theorem round_node_n : (round h srt g s).node_n = s.new_node_n := rfl

/-- What `sum` leaves at a place of the sorted indexes. -/
theorem round_s_z (hn : g.node_n ≤ 2 ^ 31) {i : ℕ} (hi : i < g.node_n) :
    (round h srt g s).s_z i =
      (changes (fun i => wordKey (sums h g s) ((round h srt g s).indexes i)) i : Word) := by
  change sum _ _ i = _
  rw [sum_apply _ (by omega) hi]
  congr 1
  refine changes_congr fun j hj => ?_
  rw [wordKey, gather, fill_of_lt _ _ (by omega)]
  rfl

theorem round_indexes_isPerm : IsPerm g.node_n (round h srt g s).indexes :=
  sort_indexes_isPerm srt _ _ _

theorem round_indexes_sorted (hn : g.node_n ≤ 2 ^ 31) :
    ∀ i j, i ≤ j → j < g.node_n →
      wordKey (sums h g s) ((round h srt g s).indexes i) ≤
        wordKey (sums h g s) ((round h srt g s).indexes j) :=
  sort_indexes_sorted srt _ _ _ hn

/-- **The labels after a round**: the rank of the node's sum. -/
theorem round_w (hn : g.node_n ≤ 2 ^ 31) {v : ℕ} (hv : v < g.node_n) :
    (round h srt g s).w v = (rank (wordKey (sums h g s)) g.node_n v : Word) := by
  obtain ⟨i, hi, rfl⟩ := (round_indexes_isPerm h srt g s).surj hv
  rw [rank_eq_changes (round_indexes_isPerm h srt g s) (round_indexes_sorted h srt g s hn) hi,
    ← round_s_z h srt g s hn hi]
  exact scatter_perm (round_indexes_isPerm h srt g s) _ _ hi

/-- **The count after a round**: the number of distinct sums. -/
theorem round_new_node_n (hn : g.node_n ≤ 2 ^ 31) (hpos : 1 ≤ g.node_n) :
    (round h srt g s).new_node_n = keyCount (wordKey (sums h g s)) g.node_n := by
  have hlast := round_s_z h srt g s hn (show g.node_n - 1 < g.node_n by omega)
  rw [keyCount_eq_changes (round_indexes_isPerm h srt g s) hpos (round_indexes_sorted h srt g s hn)]
  change nodeT (((round h srt g s).s_z (g.node_n - 1)).toNat + 1) = _
  have hle := changes_le (fun i => wordKey (sums h g s) ((round h srt g s).indexes i))
    (g.node_n - 1)
  rw [hlast, BitVec.natCast_eq_ofNat, BitVec.toNat_ofNat, Nat.mod_eq_of_lt (by omega),
    nodeT_of_lt (by omega)]

/-- Nodes have the same label after a round exactly when their sums are equal. -/
theorem round_w_eq_iff (hn : g.node_n ≤ 2 ^ 31) {u v : ℕ} (hu : u < g.node_n)
    (hv : v < g.node_n) :
    (round h srt g s).w u = (round h srt g s).w v ↔ sums h g s u = sums h g s v := by
  rw [round_w h srt g s hn hu, round_w h srt g s hn hv, BitVec.natCast_eq_ofNat,
    BitVec.natCast_eq_ofNat, ← BitVec.toNat_inj, BitVec.toNat_ofNat, BitVec.toNat_ofNat]
  have hcount : keyCount (wordKey (sums h g s)) g.node_n ≤ g.node_n := keyCount_le
  have hru : rank (wordKey (sums h g s)) g.node_n u < _ := rank_lt_keyCount hu
  have hrv : rank (wordKey (sums h g s)) g.node_n v < _ := rank_lt_keyCount hv
  rw [Nat.mod_eq_of_lt (by omega), Nat.mod_eq_of_lt (by omega), rank_eq_iff hu hv, wordKey, wordKey,
    BitVec.toNat_inj]

end RoundSpec

end Rbsc.Rsc
