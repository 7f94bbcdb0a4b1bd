import Rbsc.BvGraph.Model

/-!
# BVGraph: one node

What `diff_comp` and `intervalize` make of the list of a node, and that
`get_successors_iter_priv` reads back what `write` has written.

* `take_blocks copying blocks l`: what is copied from `l`, by blocks that are copied and skipped in
  turn; `diff_comp_perm`: the copied nodes and the extra nodes are those of the list;
* `IntervalsOk`: the intervals in increasing order, with gaps between them;
* `write_reads`: the decoder that supplies the calls of `write` gives back the list.
-/

namespace Rbsc.BvGraph

open Arrays Decoding

/-! ### Casts -/

theorem asI64_eq {x : ℕ} (h : x < 2 ^ 63) : asI64 x = x := by
  unfold asI64
  rw [Int.bmod_eq_of_le] <;> omega

theorem i64_offset_eq {x node : ℕ} (hx : x < 2 ^ 63) (hn : node < 2 ^ 63) :
    i64_offset x node = (x : ℤ) - node := by
  unfold i64_offset
  rw [asI64_eq hx, asI64_eq hn, Int.bmod_eq_of_le] <;> omega

/-- The first number of a list is found again from its offset. -/
theorem offset_node_to_int (dsi : DsiBitstream) {x node : ℕ} (hx : x < 2 ^ 63)
    (hn : node < 2 ^ 63) :
    offset_node node (dsi.to_int (dsi.to_nat (i64_offset x node))) = x := by
  rw [i64_offset_eq hx hn, dsi.to_int_to_nat _ (by omega) (by omega)]
  unfold offset_node asUsize
  rw [asI64_eq hn]
  omega

theorem to_nat_offset_lt (dsi : DsiBitstream) {x node : ℕ} (hx : x < 2 ^ 63)
    (hn : node < 2 ^ 63) : dsi.to_nat (i64_offset x node) < CODE_MAX := by
  rw [i64_offset_eq hx hn]
  exact dsi.to_nat_lt _ (by omega) (by omega)

/-! ### The blocks -/

/-- What is copied from a list by blocks that are copied and skipped in turn; after the last block
comes one more, to the end of the list. -/
def take_blocks : Bool → List ℕ → List ℕ → List ℕ
  | copying, [], l => if copying then l else []
  | copying, b :: blocks, l =>
    (if copying then l.take b else []) ++ take_blocks (!copying) blocks (l.drop b)

theorem take_blocks_sublist (copying : Bool) (blocks l : List ℕ) :
    (take_blocks copying blocks l).Sublist l := by
  induction blocks generalizing copying l with
  | nil => cases copying <;> simp [take_blocks]
  | cons b blocks ih =>
    have h : ((if copying then l.take b else []) ++
        take_blocks (!copying) blocks (l.drop b)).Sublist (l.take b ++ l.drop b) := by
      refine List.Sublist.append ?_ (ih _ _)
      cases copying <;> simp
    rwa [List.take_append_drop] at h

/-- The blocks that the loop pushes when `pre` is the block so far. -/
theorem diff_comp_loop_perm (curr ref : List ℕ) (len : ℕ) (copying : Bool) (pre : List ℕ)
    (hpre : pre.length = len) :
    (take_blocks copying (diff_comp_loop curr ref len copying).1 (pre ++ ref) ++
      (diff_comp_loop curr ref len copying).2).Perm ((if copying then pre else []) ++ curr) := by
  induction curr, ref, len, copying using diff_comp_loop.induct generalizing pre with
  | case1 j js k ks len h ih =>
    have := ih [] rfl
    rw [diff_comp_loop, if_pos h]
    subst hpre
    simpa [take_blocks, List.perm_append_left_iff] using this
  | case2 j js k ks len h h' ih =>
    have := ih pre hpre
    rw [diff_comp_loop, if_neg h, if_pos h']
    exact (List.perm_middle.trans (this.cons j)).trans List.perm_middle.symm
  | case3 j js k ks len h h' ih =>
    have := ih (pre ++ [k]) (by simp [hpre])
    rw [diff_comp_loop, if_neg h, if_neg h']
    obtain rfl : j = k := by omega
    simpa using this
  | case4 j js k ks len h ih =>
    have := ih (pre ++ [k]) (by simp [hpre])
    rw [diff_comp_loop, if_pos h]
    simpa using this
  | case5 j js k ks len h h' ih =>
    have := ih pre hpre
    rw [diff_comp_loop, if_neg h, if_pos h']
    exact List.perm_middle.trans (this.cons j)
  | case6 j js k ks len h h' ih =>
    have := ih [] rfl
    rw [diff_comp_loop, if_neg h, if_neg h']
    subst hpre
    simpa [take_blocks] using this
  | case7 k ks len copying =>
    subst hpre
    cases copying <;> simp [diff_comp_loop, take_blocks]
  | case8 curr len copying =>
    cases copying <;> simp [diff_comp_loop, take_blocks]

theorem diff_comp_loop_extra (curr ref : List ℕ) (len : ℕ) (copying : Bool) :
    (diff_comp_loop curr ref len copying).2.Sublist curr := by
  induction curr, ref, len, copying using diff_comp_loop.induct with
  | case1 j js k ks len h ih => rwa [diff_comp_loop, if_pos h]
  | case2 j js k ks len h h' ih =>
    rw [diff_comp_loop, if_neg h, if_pos h']
    exact ih.cons_cons j
  | case3 j js k ks len h h' ih =>
    rw [diff_comp_loop, if_neg h, if_neg h']
    exact ih.cons j
  | case4 j js k ks len h ih => rwa [diff_comp_loop, if_pos h]
  | case5 j js k ks len h h' ih =>
    rw [diff_comp_loop, if_neg h, if_pos h']
    exact ih.cons_cons j
  | case6 j js k ks len h h' ih => rwa [diff_comp_loop, if_neg h, if_neg h']
  | case7 => simp [diff_comp_loop]
  | case8 => simp [diff_comp_loop]

/-- The blocks lie in the rest of the reference list. -/
theorem diff_comp_loop_sum (curr ref : List ℕ) (len : ℕ) (copying : Bool) :
    (diff_comp_loop curr ref len copying).1.sum ≤ len + ref.length := by
  induction curr, ref, len, copying using diff_comp_loop.induct with
  | case1 j js k ks len h ih =>
    rw [diff_comp_loop, if_pos h, List.sum_cons]
    omega
  | case2 j js k ks len h h' ih => rwa [diff_comp_loop, if_neg h, if_pos h']
  | case3 j js k ks len h h' ih =>
    rw [diff_comp_loop, if_neg h, if_neg h', List.length_cons]
    omega
  | case4 j js k ks len h ih =>
    rw [diff_comp_loop, if_pos h, List.length_cons]
    omega
  | case5 j js k ks len h h' ih => rwa [diff_comp_loop, if_neg h, if_pos h']
  | case6 j js k ks len h h' ih =>
    rw [diff_comp_loop, if_neg h, if_neg h', List.sum_cons]
    omega
  | case7 k ks len copying => cases copying <;> simp [diff_comp_loop]
  | case8 => simp [diff_comp_loop]

/-- The next round of the loop takes a step in the reference list. -/
def Steps (curr ref : List ℕ) (copying : Bool) : Prop :=
  ∃ j js k ks, curr = j :: js ∧ ref = k :: ks ∧ if copying then j = k else k < j

/-- No block is empty but the first of the list, and that only where no step was taken before. -/
theorem diff_comp_loop_pos (curr ref : List ℕ) (len : ℕ) (copying : Bool) :
    (∀ b ∈ (diff_comp_loop curr ref len copying).1.tail, 0 < b) ∧
      (0 < len ∨ Steps curr ref copying →
        ∀ b ∈ (diff_comp_loop curr ref len copying).1, 0 < b) := by
  induction curr, ref, len, copying using diff_comp_loop.induct with
  | case1 j js k ks len h ih =>
    have hrest := ih.2 (Or.inr ⟨j, js, k, ks, rfl, rfl, h⟩)
    rw [diff_comp_loop, if_pos h]
    refine ⟨hrest, fun hlen => List.forall_mem_cons.2 ⟨?_, hrest⟩⟩
    obtain hlen | ⟨j', js', k', ks', hc, hr, heq⟩ := hlen
    · exact hlen
    · cases hc
      cases hr
      simp only [if_true] at heq
      omega
  | case2 j js k ks len h h' ih =>
    rw [diff_comp_loop, if_neg h, if_pos h']
    refine ⟨ih.1, fun hlen => ih.2 (Or.inl ?_)⟩
    obtain hlen | ⟨j', js', k', ks', hc, hr, heq⟩ := hlen
    · exact hlen
    · cases hc
      cases hr
      simp only [if_true] at heq
      omega
  | case3 j js k ks len h h' ih =>
    rw [diff_comp_loop, if_neg h, if_neg h']
    exact ⟨ih.1, fun _ => ih.2 (Or.inl (by omega))⟩
  | case4 j js k ks len h ih =>
    rw [diff_comp_loop, if_pos h]
    exact ⟨ih.1, fun _ => ih.2 (Or.inl (by omega))⟩
  | case5 j js k ks len h h' ih =>
    rw [diff_comp_loop, if_neg h, if_pos h']
    refine ⟨ih.1, fun hlen => ih.2 (Or.inl ?_)⟩
    obtain hlen | ⟨j', js', k', ks', hc, hr, hlt⟩ := hlen
    · exact hlen
    · cases hc
      cases hr
      exact absurd hlt h
  | case6 j js k ks len h h' ih =>
    have hrest := ih.2 (Or.inr ⟨j, js, k, ks, rfl, rfl, by simp only [if_true]; omega⟩)
    rw [diff_comp_loop, if_neg h, if_neg h']
    refine ⟨hrest, fun hlen => List.forall_mem_cons.2 ⟨?_, hrest⟩⟩
    obtain hlen | ⟨j', js', k', ks', hc, hr, hlt⟩ := hlen
    · exact hlen
    · cases hc
      cases hr
      exact absurd hlt h
  | case7 k ks len copying =>
    refine ⟨?_, ?_⟩
    · cases copying <;> simp [diff_comp_loop]
    · rintro (hlen | ⟨j', js', k', ks', hc, -⟩)
      · cases copying <;> simp [diff_comp_loop, hlen]
      · cases hc
  | case8 => simp [diff_comp_loop]

/-- Where the loop ends in a block that is copied, that block is not empty. -/
theorem diff_comp_loop_rest (curr ref : List ℕ) (len : ℕ) (copying : Bool)
    (h : copying = true → 0 < len ∨ ref ≠ []) :
    (copying = decide ((diff_comp_loop curr ref len copying).1.length % 2 = 0)) →
      (diff_comp_loop curr ref len copying).1.sum < len + ref.length := by
  induction curr, ref, len, copying using diff_comp_loop.induct with
  | case1 j js k ks len hlt ih =>
    rw [diff_comp_loop, if_pos hlt, List.sum_cons, List.length_cons]
    intro hpar
    have := ih (fun hf => Bool.noConfusion hf) (by
      simp only [true_eq_decide_iff, false_eq_decide_iff] at hpar ⊢
      omega)
    omega
  | case2 j js k ks len hlt h' ih =>
    rw [diff_comp_loop, if_neg hlt, if_pos h']
    exact ih fun _ => Or.inr (List.cons_ne_nil _ _)
  | case3 j js k ks len hlt h' ih =>
    rw [diff_comp_loop, if_neg hlt, if_neg h', List.length_cons]
    intro hpar
    have := ih (fun _ => Or.inl (by omega)) hpar
    omega
  | case4 j js k ks len hlt ih =>
    rw [diff_comp_loop, if_pos hlt, List.length_cons]
    intro hpar
    have := ih (fun hf => Bool.noConfusion hf) hpar
    omega
  | case5 j js k ks len hlt h' ih =>
    rw [diff_comp_loop, if_neg hlt, if_pos h']
    exact ih fun hf => Bool.noConfusion hf
  | case6 j js k ks len hlt h' ih =>
    rw [diff_comp_loop, if_neg hlt, if_neg h', List.sum_cons, List.length_cons]
    intro hpar
    have := ih (fun _ => Or.inr (List.cons_ne_nil _ _)) (by
      simp only [true_eq_decide_iff, false_eq_decide_iff] at hpar ⊢
      omega)
    omega
  | case7 k ks len copying =>
    cases copying <;> simp [diff_comp_loop]
  | case8 curr len copying =>
    cases copying with
    | false => simp [diff_comp_loop]
    | true =>
      intro _
      have := h rfl
      simpa [diff_comp_loop] using this

/-! ### The intervals -/

theorem take_run_length (x : ℕ) (xs : List ℕ) :
    xs.take (run_length x xs) = List.range' (x + 1) (run_length x xs) := by
  induction xs generalizing x with
  | nil => simp [run_length]
  | cons y ys ih =>
    rw [run_length]
    split
    · next h =>
      subst h
      rw [List.take_succ_cons, ih, List.range'_succ]
    · simp

/-- The run ends where the next number leaves a gap. -/
theorem head_drop_run_length (x : ℕ) (xs : List ℕ) :
    ∀ y ∈ (xs.drop (run_length x xs)).head?, y ≠ x + run_length x xs + 1 := by
  induction xs generalizing x with
  | nil => simp [run_length]
  | cons y ys ih =>
    rw [run_length]
    split
    · next h =>
      subst h
      rw [List.drop_succ_cons]
      intro z hz
      have := ih _ z hz
      omega
    · next h =>
      intro z hz
      simp only [List.drop_zero, List.head?_cons, Option.mem_some_iff] at hz
      subst hz
      omega

/-- The numbers of some intervals. -/
def interval_nodes (intervals : List (ℕ × ℕ)) : List ℕ :=
  intervals.flatMap fun p => List.range' p.1 p.2

/-- Intervals from `lo` on: there is a gap after each, and each has a length of at least
`min_interval_length`. -/
def IntervalsOk (min_interval_length : ℕ) : ℕ → List (ℕ × ℕ) → Prop
  | _, [] => True
  | lo, (left, len) :: intervals =>
    lo ≤ left ∧ min_interval_length ≤ len ∧ 0 < len ∧
      IntervalsOk min_interval_length (left + len + 1) intervals

theorem IntervalsOk.mono {m lo lo' : ℕ} {intervals : List (ℕ × ℕ)}
    (h : IntervalsOk m lo' intervals) (hle : lo ≤ lo') : IntervalsOk m lo intervals := by
  cases intervals with
  | nil => trivial
  | cons p intervals => exact ⟨hle.trans h.1, h.2⟩

/-- After a run of `r + 1` numbers from `x` on there is a gap. -/
theorem lt_of_mem_drop_run_length {x : ℕ} {xs : List ℕ} (hs : (x :: xs).Pairwise (· < ·)) :
    ∀ y ∈ xs.drop (run_length x xs), x + run_length x xs + 1 < y := by
  obtain ⟨hx, hxs⟩ := List.pairwise_cons.1 hs
  have hlast : ∀ y ∈ xs.drop (run_length x xs), x + run_length x xs < y := by
    intro y hy
    by_cases h0 : run_length x xs = 0
    · have := hx y (List.mem_of_mem_drop hy)
      omega
    · rw [← List.take_append_drop (run_length x xs) xs, List.pairwise_append] at hxs
      refine hxs.2.2 _ ?_ y hy
      rw [take_run_length, List.mem_range'_1]
      omega
  have hhead := head_drop_run_length x xs
  have hsorted := hxs.sublist (List.drop_sublist (run_length x xs) xs)
  cases hd : xs.drop (run_length x xs) with
  | nil => simp
  | cons y ys =>
    rw [hd] at hlast hhead hsorted
    have hy := hlast y List.mem_cons_self
    have hne := hhead y rfl
    refine List.forall_mem_cons.2 ⟨by omega, fun z hz => ?_⟩
    have := List.rel_of_pairwise_cons hsorted hz
    omega

/-- **The intervals and the residuals of some numbers in increasing order.** -/
theorem intervalize_spec {m : ℕ} (hm : 0 < m) (lo : ℕ) (xs : List ℕ)
    (hs : xs.Pairwise (· < ·)) (hlo : ∀ x ∈ xs, lo ≤ x) :
    IntervalsOk m lo (intervalize m xs).1 ∧ (intervalize m xs).2.Sublist xs ∧
      (interval_nodes (intervalize m xs).1 ++ (intervalize m xs).2).Perm xs := by
  induction xs using intervalize.induct m generalizing lo with
  | case1 => simp [intervalize, IntervalsOk, interval_nodes]
  | case2 x xs j h ih =>
    have hr : run_length x xs ≠ 0 := fun h0 => h.1 (by simp [j, h0])
    have hj : j = run_length x xs + 1 := by simp [j, hr]
    obtain ⟨hx, hxs⟩ := List.pairwise_cons.1 hs
    obtain ⟨hok, hsub, hperm⟩ := ih (x + j + 1) (hxs.sublist (List.drop_sublist _ _))
      fun y hy => by
        have := lt_of_mem_drop_run_length hs y (by simpa [hj] using hy)
        omega
    have heq : intervalize m (x :: xs) = ((x, j) :: (intervalize m (xs.drop (j - 1))).1,
        (intervalize m (xs.drop (j - 1))).2) := by
      rw [intervalize, if_neg hr, ← hj, if_pos h]
    rw [heq]
    refine ⟨⟨hlo x List.mem_cons_self, h.2, by omega, hok⟩,
      (hsub.trans (List.drop_sublist _ _)).cons x, ?_⟩
    have hrun : x :: xs = List.range' x j ++ xs.drop (j - 1) := by
      rw [hj, List.range'_succ, List.cons_append, Nat.add_sub_cancel, ← take_run_length,
        List.take_append_drop]
    rw [hrun]
    simpa [interval_nodes, List.perm_append_left_iff] using hperm
  | case3 x xs j h ih =>
    obtain ⟨hx, hxs⟩ := List.pairwise_cons.1 hs
    obtain ⟨hok, hsub, hperm⟩ := ih lo hxs fun y hy => hlo y (List.mem_cons_of_mem _ hy)
    have hjm : j < m := by
      by_contra hge
      exact h ⟨by omega, by omega⟩
    have heq : intervalize m (x :: xs) = ((intervalize m xs).1, x :: (intervalize m xs).2) := by
      have hj : j = if run_length x xs = 0 then 0 else run_length x xs + 1 := dite_eq_ite
      rw [intervalize, ← hj, if_neg h]
      simp only [if_pos hjm]
    rw [heq]
    exact ⟨hok, hsub.cons_cons x, List.perm_middle.trans (hperm.cons x)⟩

/-! ### Reading back -/

section

variable {σ : Type} (dsi : DsiBitstream) (decoder : Component → StateT σ Option ℕ)

theorem slice_eq {l : List ℕ} {i j : ℕ} (hij : i ≤ j) (hj : j ≤ l.length) :
    slice l i j = some ((l.drop i).take (j - i)) := by
  rw [slice, if_pos ⟨hij, hj⟩, List.drop_take]

/-- The blocks after the first, from the place `idx` on; what is left to copy then is the rest of
the list, if the next block is one that is copied. -/
theorem copy_blocks_reads (neighbours : List ℕ) (blocks : List ℕ) (block_id idx : ℕ)
    (results : List ℕ) (hpos : ∀ b ∈ blocks, 0 < b) (hsum : idx + blocks.sum ≤ neighbours.length) :
    ∃ r, Reads decoder (copy_blocks decoder neighbours blocks.length block_id idx results)
        (blocks.map fun b => (.block, b - 1)) (r, idx + blocks.sum) ∧
      (r ++ if (block_id + blocks.length) % 2 = 0 then neighbours.drop (idx + blocks.sum) else []) =
        results ++ take_blocks (block_id % 2 = 0) blocks (neighbours.drop idx) := by
  induction blocks generalizing block_id idx results with
  | nil =>
    refine ⟨results, Reads.pure _, ?_⟩
    simp [take_blocks]
  | cons b blocks ih =>
    obtain ⟨hb, hpos⟩ := List.forall_mem_cons.1 hpos
    rw [List.sum_cons, ← Nat.add_assoc] at hsum
    have hlast : idx + (b - 1) + 1 = idx + b := by omega
    have hslice : slice neighbours idx (idx + b) = some ((neighbours.drop idx).take b) := by
      rw [slice_eq (by omega) (by omega), Nat.add_sub_cancel_left]
    obtain ⟨r, hr, heq⟩ := ih (block_id + 1) (idx + b)
      (if block_id % 2 = 0 then results ++ (neighbours.drop idx).take b else results) hpos hsum
    refine ⟨r, ?_, ?_⟩
    · rw [List.sum_cons, ← Nat.add_assoc]
      refine Reads.ask ?_
      rw [hlast]
      by_cases hpar : block_id % 2 = 0
      · simp only [if_pos hpar] at hr ⊢
        exact Reads.bind_lift hslice hr
      · simp only [if_neg hpar] at hr ⊢
        exact hr
    · rw [List.sum_cons, List.length_cons, ← Nat.add_assoc idx,
        show block_id + (blocks.length + 1) = block_id + 1 + blocks.length by omega, heq,
        take_blocks, List.drop_drop]
      by_cases hpar : block_id % 2 = 0
      · have : (block_id + 1) % 2 ≠ 0 := by omega
        simp [hpar, this]
      · have : (block_id + 1) % 2 = 0 := by omega
        simp [hpar, this]

theorem read_copied_reads (neighbours blocks : List ℕ) (hpos : ∀ b ∈ blocks.tail, 0 < b)
    (hsum : blocks.sum ≤ neighbours.length) :
    Reads decoder (read_copied decoder neighbours)
      ((.block_count, (blocks.modifyHead (· + 1)).length) ::
        (blocks.modifyHead (· + 1)).map fun b => (.block, b - 1))
      (take_blocks true blocks neighbours) := by
  refine Reads.ask ?_
  cases blocks with
  | nil => exact Reads.pure _
  | cons b blocks =>
    rw [List.sum_cons] at hsum
    obtain ⟨r, hr, heq⟩ := copy_blocks_reads decoder neighbours blocks 1 b
      (neighbours.take b) hpos hsum
    have hslice : slice neighbours 0 b = some (neighbours.take b) := by
      rw [slice_eq (by omega) (by omega), List.drop_zero, Nat.sub_zero]
    simp only [List.modifyHead_cons, List.length_cons, List.map_cons, Nat.add_sub_cancel,
      if_neg (Nat.succ_ne_zero blocks.length)]
    refine Reads.ask (Reads.bind_lift hslice ((hr.bind ?_).congr (List.append_nil _)))
    rw [Nat.add_comm 1] at heq
    have hall : take_blocks true (b :: blocks) neighbours =
        neighbours.take b ++ take_blocks (decide (1 % 2 = 0)) blocks (neighbours.drop b) := rfl
    rw [hall, ← heq]
    by_cases hpar : (blocks.length + 1) % 2 = 0
    · simp only [if_pos hpar]
      refine Reads.bind_lift (slice_eq hsum le_rfl) ?_
      rw [List.take_of_length_le (by rw [List.length_drop])]
      exact Reads.pure _
    · simp only [if_neg hpar, List.append_nil]
      exact Reads.pure _

theorem read_next_intervals_reads {m : ℕ} (prev : ℕ) (intervals : List (ℕ × ℕ))
    (hok : IntervalsOk m (prev + 1) intervals) :
    Reads decoder (read_next_intervals decoder m intervals.length prev)
      (write_intervals m prev intervals) intervals := by
  induction intervals generalizing prev with
  | nil => exact Reads.pure _
  | cons p intervals ih =>
    obtain ⟨left, len⟩ := p
    obtain ⟨hlo, hm, -, hrest⟩ := hok
    refine Reads.ask (Reads.ask ?_)
    rw [show prev + (1 + (left - prev - 1)) = left by omega, Nat.sub_add_cancel hm]
    exact (ih (left + len) hrest).map _

theorem read_next_residuals_reads (prev : ℕ) (residuals : List ℕ)
    (hs : (prev :: residuals).Pairwise (· < ·)) :
    Reads decoder (read_next_residuals decoder residuals.length prev)
      (write_residuals prev residuals) residuals := by
  induction residuals generalizing prev with
  | nil => exact Reads.pure _
  | cons x residuals ih =>
    have hx := List.rel_of_pairwise_cons hs (List.mem_cons_self (a := x))
    refine Reads.ask ?_
    rw [show prev + (1 + (x - prev - 1)) = x by omega]
    exact (ih x (List.pairwise_cons.1 hs).2).map _

theorem read_intervals_reads {m node left : ℕ} (hleft : left ≠ 0) (hm : m ≠ 0)
    (hn : node < 2 ^ 63) {intervals : List (ℕ × ℕ)} (hok : IntervalsOk m 0 intervals)
    (hlt : ∀ p ∈ intervals, p.1 < 2 ^ 63) :
    Reads decoder (read_intervals dsi decoder m node left)
      (write_first_interval dsi node m intervals) intervals := by
  rw [read_intervals, if_pos ⟨hleft, hm⟩]
  refine Reads.ask ?_
  cases intervals with
  | nil => exact Reads.pure _
  | cons p intervals =>
    obtain ⟨x, len⟩ := p
    obtain ⟨-, hlen, -, hrest⟩ := hok
    rw [if_neg (by simp)]
    refine Reads.ask (Reads.ask ?_)
    rw [offset_node_to_int dsi (hlt _ List.mem_cons_self) hn, Nat.sub_add_cancel hlen]
    exact (read_next_intervals_reads decoder (x + len) intervals hrest).map _

theorem read_residuals_reads {node : ℕ} (hn : node < 2 ^ 63) {residuals : List ℕ}
    (hs : residuals.Pairwise (· < ·)) (hlt : ∀ x ∈ residuals, x < 2 ^ 63) :
    Reads decoder (read_residuals dsi decoder node residuals.length)
      (write_first_residual dsi node residuals) residuals := by
  cases residuals with
  | nil => exact Reads.pure _
  | cons x xs =>
    rw [read_residuals, if_neg (by simp)]
    refine Reads.ask ?_
    rw [offset_node_to_int dsi (hlt _ List.mem_cons_self) hn]
    exact (read_next_residuals_reads decoder x xs hs).map _

/-- Successors of a node: numbers in increasing order that `i64` has. -/
structure Successors (l : List ℕ) : Prop where
  sorted : l.Pairwise (· < ·)
  lt : ∀ x ∈ l, x < 2 ^ 63

/-- `Some(ref_list)`, the list of the node at a distance of `delta`; `None` if that is `0`. -/
def ref_list (succ : ℕ → List ℕ) (node delta : ℕ) : Option (List ℕ) :=
  if delta = 0 then none else some (succ (node - delta))

/-- What `push` gives to `write` as the offset of the reference. -/
def reference_offset (compression_window delta : ℕ) : Option ℕ :=
  if compression_window = 0 then none else some delta

/-- The calls for one node, with a reference at a distance of `delta`. -/
def node_calls (dsi : DsiBitstream) (w m : ℕ) (succ : ℕ → List ℕ) (node delta : ℕ) : List Call :=
  (Compressor.compress (succ node) (ref_list succ node delta) m).write dsi node
    (reference_offset w delta) m

/-- The buffer holds the values of the nodes in the window of a node, from `lo` on. -/
def Near {α : Type} (compression_window : ℕ) (b : CircularBuffer α) (f : ℕ → α) (lo node : ℕ) :
    Prop :=
  ∀ i, lo ≤ i → i < node → node ≤ i + compression_window → b.index i = f i

/-- The nodes that `diff_comp` finds in the reference list. -/
def copied_nodes (curr_list : List ℕ) : Option (List ℕ) → List ℕ
  | none => []
  | some ref_list => take_blocks true (diff_comp_loop curr_list ref_list 0 true).1 ref_list

/-- What `compress` makes of a list, with the intervals `iv`. -/
structure Compressed (curr_list : List ℕ) (ref_list : Option (List ℕ)) (m : ℕ) (c : Compressor)
    (iv : List (ℕ × ℕ)) : Prop where
  outdegree : c.outdegree = curr_list.length
  blocks : ∀ l, ref_list = some l → c.blocks = (diff_comp curr_list l).1
  intervals : c.left_interval.zip c.len_interval = iv
  intervals_ok : IntervalsOk m 0 iv
  no_intervals : m = 0 → iv = []
  extra : (copied_nodes curr_list ref_list ++ c.extra_nodes).Perm curr_list
  rest : (interval_nodes iv ++ c.residuals).Perm c.extra_nodes
  residuals : c.residuals.Sublist curr_list

theorem zip_map_fst_snd (l : List (ℕ × ℕ)) : (l.map Prod.fst).zip (l.map Prod.snd) = l := by
  induction l with
  | nil => rfl
  | cons p l ih => rw [List.map_cons, List.map_cons, List.zip_cons_cons, ih]

theorem extra_nodes_sublist (curr : List ℕ) (ref : Option (List ℕ)) (m : ℕ) :
    (Compressor.compress curr ref m).extra_nodes.Sublist curr := by
  unfold Compressor.compress
  split
  · simp [Compressor.empty]
  · cases ref with
    | none => exact List.Sublist.refl _
    | some l => exact diff_comp_loop_extra curr l 0 true

theorem copied_nodes_perm {curr : List ℕ} (hcurr : curr ≠ []) (ref : Option (List ℕ)) (m : ℕ) :
    (copied_nodes curr ref ++ (Compressor.compress curr ref m).extra_nodes).Perm curr := by
  unfold Compressor.compress
  rw [if_neg hcurr]
  cases ref with
  | none => exact List.Perm.refl _
  | some l => exact diff_comp_loop_perm curr l 0 true [] rfl

theorem compress_spec {curr : List ℕ} (hcurr : curr ≠ []) (hs : curr.Pairwise (· < ·))
    (ref : Option (List ℕ)) (m : ℕ) :
    ∃ iv, Compressed curr ref m (Compressor.compress curr ref m) iv := by
  have hextra := extra_nodes_sublist curr ref m
  have hperm := copied_nodes_perm hcurr ref m
  have hblocks : ∀ l, ref = some l →
      (Compressor.compress curr ref m).blocks = (diff_comp curr l).1 := by
    rintro l rfl
    simp [Compressor.compress, hcurr]
  have hlen : (Compressor.compress curr ref m).outdegree = curr.length := by
    simp [Compressor.compress, hcurr]
  by_cases hm : m = 0
  · refine ⟨[], hlen, hblocks, ?_, trivial, fun _ => rfl, hperm, ?_, ?_⟩
    · simp [Compressor.compress, hcurr, hm]
    · simp [Compressor.compress, hcurr, hm, interval_nodes]
    · simpa [Compressor.compress, hcurr, hm] using hextra
  · obtain ⟨hok, hsub, hrest⟩ := intervalize_spec (Nat.pos_of_ne_zero hm) 0
      (Compressor.compress curr ref m).extra_nodes (hs.sublist hextra) fun _ _ => Nat.zero_le _
    refine ⟨(intervalize m (Compressor.compress curr ref m).extra_nodes).1, hlen, hblocks, ?_, hok,
      fun h => absurd h hm, hperm, ?_, ?_⟩
    · simp [Compressor.compress, hcurr, hm, zip_map_fst_snd]
    · simpa [Compressor.compress, hcurr, hm] using hrest
    · simpa [Compressor.compress, hcurr, hm] using hsub.trans hextra

/-- The numbers of the parts of a list. -/
theorem Compressed.perm {curr : List ℕ} {ref : Option (List ℕ)} {m : ℕ} {c : Compressor}
    {iv : List (ℕ × ℕ)} (h : Compressed curr ref m c iv) :
    (copied_nodes curr ref ++ interval_nodes iv ++ c.residuals).Perm curr := by
  rw [List.append_assoc]
  exact (h.rest.append_left _).trans h.extra

theorem IntervalsOk.pos {m lo : ℕ} {iv : List (ℕ × ℕ)} (h : IntervalsOk m lo iv) :
    ∀ p ∈ iv, 0 < p.2 := by
  induction iv generalizing lo with
  | nil => simp
  | cons p iv ih => exact List.forall_mem_cons.2 ⟨h.2.2.1, ih h.2.2.2⟩

theorem IntervalsOk.mem_interval_nodes {m lo : ℕ} {iv : List (ℕ × ℕ)} (h : IntervalsOk m lo iv) :
    ∀ p ∈ iv, p.1 ∈ interval_nodes iv := by
  induction iv generalizing lo with
  | nil => simp
  | cons p iv ih =>
    obtain ⟨-, -, hpos, hrest⟩ := h
    refine List.forall_mem_cons.2 ⟨?_, fun q hq => ?_⟩
    · simp only [interval_nodes, List.flatMap_cons, List.mem_append, List.mem_range'_1]
      exact Or.inl ⟨le_rfl, by omega⟩
    · exact List.mem_append_right _ (ih hrest q hq)

theorem read_reference_reads {w node m delta : ℕ} {backrefs : CircularBuffer (List ℕ)}
    {succ : ℕ → List ℕ} (hnear : Near w backrefs succ 0 node) (hw : delta ≤ w) (hd : delta ≤ node)
    {curr : List ℕ} (hcurr : curr ≠ []) {c : Compressor} {iv : List (ℕ × ℕ)}
    (hc : Compressed curr (ref_list succ node delta) m c iv) :
    Reads decoder (read_reference decoder w backrefs node)
      (c.write_reference (reference_offset w delta))
      (copied_nodes curr (ref_list succ node delta)) := by
  have hdeg : c.outdegree ≠ 0 := by
    rw [hc.outdegree]
    exact fun h => hcurr (List.length_eq_zero_iff.1 h)
  unfold Compressor.write_reference read_reference read_ref_delta reference_offset
  rw [if_neg hdeg]
  by_cases hw0 : w = 0
  · obtain rfl : delta = 0 := by omega
    rw [if_pos hw0, if_neg (not_not.2 hw0)]
    exact Reads.bind_pure (Reads.pure _)
  rw [if_neg hw0, if_pos hw0]
  refine Reads.ask ?_
  by_cases hd0 : delta = 0
  · subst hd0
    exact Reads.pure _
  · have href : ref_list succ node delta = some (succ (node - delta)) := if_neg hd0
    rw [href] at hc ⊢
    have hsum := diff_comp_loop_sum curr (succ (node - delta)) 0 true
    rw [Nat.zero_add] at hsum
    rw [if_pos hd0, if_neg hd0]
    refine Reads.bind_lift (if_pos hd) ?_
    rw [hc.blocks _ rfl, hnear (node - delta) (Nat.zero_le _) (by omega) (by omega)]
    exact read_copied_reads decoder _ _ (diff_comp_loop_pos curr _ 0 true).1 hsum

/-- The intervals, if there are extra nodes. -/
theorem compressed_intervals_reads {node m : ℕ} (hn : node < 2 ^ 63) {curr : List ℕ}
    {ref : Option (List ℕ)} {c : Compressor} {iv : List (ℕ × ℕ)} (hc : Compressed curr ref m c iv)
    (hlt : ∀ x ∈ curr, x < 2 ^ 63) :
    Reads decoder (read_intervals dsi decoder m node c.extra_nodes.length)
      (if c.extra_nodes = [] ∨ m = 0 then []
        else write_first_interval dsi node m (c.left_interval.zip c.len_interval)) iv := by
  by_cases hnone : c.extra_nodes = [] ∨ m = 0
  · have hiv : iv = [] := by
      obtain h | h := hnone
      · have hrest := hc.rest
        rw [h] at hrest
        have hnil := (List.append_eq_nil_iff.1 hrest.eq_nil).1
        cases iv with
        | nil => rfl
        | cons p iv =>
          have hmem := hc.intervals_ok.mem_interval_nodes p List.mem_cons_self
          rw [hnil] at hmem
          cases hmem
      · exact hc.no_intervals h
    rw [if_pos hnone, hiv, read_intervals, if_neg]
    · exact Reads.pure _
    · simpa [or_iff_not_imp_left] using hnone
  · have hiv : ∀ p ∈ iv, p.1 < 2 ^ 63 := fun p hp => hlt _ (hc.perm.mem_iff.1
      (List.mem_append_left _ (List.mem_append_right _
        (hc.intervals_ok.mem_interval_nodes p hp))))
    rw [if_neg hnone, hc.intervals]
    rw [not_or] at hnone
    exact read_intervals_reads dsi decoder (by simpa using hnone.1) hnone.2 hn hc.intervals_ok hiv

/-- **One node is read back.**  The decoder supplies the calls of `write`. -/
theorem write_reads {w node m delta : ℕ} (hn : node < 2 ^ 63)
    {backrefs : CircularBuffer (List ℕ)} {succ : ℕ → List ℕ} (hnear : Near w backrefs succ 0 node)
    (hw : delta ≤ w) (hd : delta ≤ node) (h : Successors (succ node)) :
    Reads decoder (get_successors_iter_priv dsi decoder w m backrefs node)
      (node_calls dsi w m succ node delta) (succ node) := by
  obtain ⟨hs, hlt⟩ := h
  unfold get_successors_iter_priv node_calls
  generalize succ node = curr at hs hlt ⊢
  by_cases hcurr : curr = []
  · subst hcurr
    exact Reads.ask (Reads.pure _)
  · obtain ⟨iv, hc⟩ := compress_spec hcurr hs (ref_list succ node delta) m
    generalize Compressor.compress curr (ref_list succ node delta) m = c at hc ⊢
    have hcopied := read_reference_reads decoder hnear hw hd hcurr hc
    generalize ref_list succ node delta = ref at hc hcopied
    have hperm := hc.perm
    have hlen := hperm.length_eq
    have hextra := hc.extra.length_eq
    simp only [List.length_append] at hlen hextra
    have hdeg : c.outdegree ≠ 0 := by
      rw [hc.outdegree]
      exact fun h => hcurr (List.length_eq_zero_iff.1 h)
    rw [Compressor.write, List.append_assoc]
    refine Reads.ask ?_
    rw [if_neg hdeg]
    refine Reads.bind hcopied ?_
    have hleft : checked_sub c.outdegree (copied_nodes curr ref).length =
        some c.extra_nodes.length := by
      rw [checked_sub, if_pos (by rw [hc.outdegree]; omega), hc.outdegree]
      congr 1
      omega
    refine Reads.bind_lift hleft (Reads.bind (a := iv) ?_ ?_)
    · exact compressed_intervals_reads dsi decoder hn hc hlt
    · have hres : checked_sub c.outdegree (copied_nodes curr ref ++ interval_nodes iv).length =
          some c.residuals.length := by
        rw [checked_sub, List.length_append, if_pos (by rw [hc.outdegree]; omega), hc.outdegree]
        congr 1
        omega
      refine Reads.bind_lift hres ?_
      have hsub := hc.residuals
      have hfinal := (read_residuals_reads dsi decoder hn (hs.sublist hsub)
        fun x hx => hlt x (hsub.subset hx)).map fun residuals =>
          (copied_nodes curr ref ++ interval_nodes iv ++ residuals).insertionSort (· ≤ ·)
      have hsort : (copied_nodes curr ref ++ interval_nodes iv ++ c.residuals).insertionSort
          (· ≤ ·) = curr := by
        refine List.Perm.eq_of_pairwise ?_ (List.pairwise_insertionSort _ _)
          (hs.imp fun h => h.le) ((List.perm_insertionSort _ _).trans hperm)
        intro a b _ _ hab hba
        exact le_antisymm hab hba
      rwa [hsort] at hfinal

end

/-! ### The bits -/

theorem length_le_of_pairwise_lt {l : List ℕ} (h : l.Pairwise (· < ·)) {n : ℕ}
    (hn : ∀ x ∈ l, x < n) : l.length ≤ n := by
  have hsub : l.toFinset ⊆ Finset.range n := fun x hx =>
    Finset.mem_range.2 (hn x (List.mem_toFinset.1 hx))
  have hcard := Finset.card_le_card hsub
  rwa [List.toFinset_card_of_nodup (h.imp ne_of_lt), Finset.card_range] at hcard

theorem Successors.length_le {l : List ℕ} (h : Successors l) : l.length ≤ 2 ^ 63 :=
  length_le_of_pairwise_lt h.sorted h.lt

/-- The decoder of the bits of some calls. -/
theorem supplies_encode (dsi : DsiBitstream) (cf : CompFlags) {calls : List Call}
    (h : ∀ c ∈ calls, c.2 < CODE_MAX) (rest : List Bool) :
    Supplies (cf.decoder dsi) calls (cf.encode dsi calls ++ rest) rest := by
  induction calls with
  | nil => rfl
  | cons c calls ih =>
    obtain ⟨hc, hcalls⟩ := List.forall_mem_cons.1 h
    refine ⟨cf.encode dsi calls ++ rest, ?_, ih hcalls⟩
    rw [CompFlags.encode, List.flatMap_cons, List.append_assoc]
    exact dsi.read_write _ _ _ hc

/-- The estimator counts the bits. -/
theorem estimate_eq (dsi : DsiBitstream) (cf : CompFlags) {calls : List Call}
    (h : ∀ c ∈ calls, c.2 < CODE_MAX) :
    cf.estimate dsi calls = (cf.encode dsi calls).length := by
  induction calls with
  | nil => rfl
  | cons c calls ih =>
    obtain ⟨hc, hcalls⟩ := List.forall_mem_cons.1 h
    have := ih hcalls
    rw [CompFlags.estimate, CompFlags.encode] at this ⊢
    rw [List.map_cons, List.sum_cons, List.flatMap_cons, List.length_append, this,
      dsi.len_eq _ _ hc]

theorem length_le_sum_of_pos {l : List ℕ} (h : ∀ b ∈ l, 0 < b) : l.length ≤ l.sum := by
  induction l with
  | nil => simp
  | cons b l ih =>
    obtain ⟨hb, hl⟩ := List.forall_mem_cons.1 h
    have := ih hl
    rw [List.length_cons, List.sum_cons]
    omega

theorem write_intervals_lt {m : ℕ} (prev : ℕ) (iv : List (ℕ × ℕ))
    (h : ∀ p ∈ iv, p.1 < CODE_MAX ∧ p.2 < CODE_MAX) :
    ∀ c ∈ write_intervals m prev iv, c.2 < CODE_MAX := by
  induction iv generalizing prev with
  | nil => simp [write_intervals]
  | cons p iv ih =>
    obtain ⟨hp, hiv⟩ := List.forall_mem_cons.1 h
    refine List.forall_mem_cons.2 ⟨?_, List.forall_mem_cons.2 ⟨?_, ih _ hiv⟩⟩
    · exact lt_of_le_of_lt ((Nat.sub_le _ _).trans (Nat.sub_le _ _)) hp.1
    · exact lt_of_le_of_lt (Nat.sub_le _ _) hp.2

theorem write_residuals_lt (prev : ℕ) (residuals : List ℕ) (h : ∀ x ∈ residuals, x < CODE_MAX) :
    ∀ c ∈ write_residuals prev residuals, c.2 < CODE_MAX := by
  induction residuals generalizing prev with
  | nil => simp [write_residuals]
  | cons x residuals ih =>
    obtain ⟨hx, hres⟩ := List.forall_mem_cons.1 h
    refine List.forall_mem_cons.2 ⟨?_, ih _ hres⟩
    exact lt_of_le_of_lt ((Nat.sub_le _ _).trans (Nat.sub_le _ _)) hx

theorem IntervalsOk.length_le {m lo : ℕ} {iv : List (ℕ × ℕ)} (h : IntervalsOk m lo iv) :
    iv.length ≤ (interval_nodes iv).length ∧ ∀ p ∈ iv, p.2 ≤ (interval_nodes iv).length := by
  induction iv generalizing lo with
  | nil => simp
  | cons p iv ih =>
    obtain ⟨-, -, hpos, hrest⟩ := h
    obtain ⟨hlen, hle⟩ := ih hrest
    have hcons : (interval_nodes (p :: iv)).length = p.2 + (interval_nodes iv).length := by
      simp [interval_nodes]
    rw [hcons, List.length_cons]
    refine ⟨by omega, List.forall_mem_cons.2 ⟨by omega, fun q hq => ?_⟩⟩
    have := hle q hq
    omega

theorem write_reference_lt {w node m delta : ℕ} {succ : ℕ → List ℕ} (hd : delta < 2 ^ 63)
    (hlen : (succ (node - delta)).length ≤ 2 ^ 63) {curr : List ℕ} {c : Compressor}
    {iv : List (ℕ × ℕ)} (hc : Compressed curr (ref_list succ node delta) m c iv) :
    ∀ call ∈ c.write_reference (reference_offset w delta), call.2 < CODE_MAX := by
  have hmax : 2 ^ 63 + 1 < CODE_MAX := by simp [CODE_MAX]
  unfold Compressor.write_reference reference_offset
  by_cases hdeg : c.outdegree = 0
  · simp [hdeg]
  by_cases hw0 : w = 0
  · simp [hw0]
  rw [if_neg hdeg, if_neg hw0]
  refine List.forall_mem_cons.2 ⟨by change delta < _; omega, ?_⟩
  by_cases hd0 : delta = 0
  · simp [hd0]
  rw [if_neg hd0, hc.blocks _ (if_neg hd0)]
  have hsum := diff_comp_loop_sum curr (succ (node - delta)) 0 true
  have htail := length_le_sum_of_pos (diff_comp_loop_pos curr (succ (node - delta)) 0 true).1
  dsimp only [diff_comp]
  generalize (diff_comp_loop curr (succ (node - delta)) 0 true).1 = bl at hsum htail
  cases bl with
  | nil => simp [CODE_MAX]
  | cons b bl =>
    simp only [List.tail_cons, List.sum_cons] at htail hsum
    simp only [List.modifyHead_cons, List.length_cons, List.map_cons, List.forall_mem_cons,
      List.forall_mem_map]
    refine ⟨by omega, by omega, fun b' hb' => ?_⟩
    have := List.single_le_sum (fun x _ => Nat.zero_le x) b' hb'
    omega

/-- All numbers that `write` writes are in the range of the codes. -/
theorem node_calls_lt (dsi : DsiBitstream) {w node m delta : ℕ} (hn : node < 2 ^ 63)
    {succ : ℕ → List ℕ} (hd : delta ≤ node) (hlen : (succ (node - delta)).length ≤ 2 ^ 63)
    (h : Successors (succ node)) :
    ∀ c ∈ node_calls dsi w m succ node delta, c.2 < CODE_MAX := by
  unfold node_calls
  generalize succ node = curr at h ⊢
  by_cases hcurr : curr = []
  · subst hcurr
    simp [Compressor.compress, Compressor.empty, Compressor.write, Compressor.write_reference,
      write_first_residual, CODE_MAX]
  · obtain ⟨iv, hc⟩ := compress_spec hcurr h.sorted (ref_list succ node delta) m
    generalize Compressor.compress curr (ref_list succ node delta) m = c at hc ⊢
    have hmax : 2 ^ 63 + 1 < CODE_MAX := by simp [CODE_MAX]
    have hcl := h.length_le
    have hperm := hc.perm
    have hivlen := hperm.length_eq
    simp only [List.length_append] at hivlen
    have hiv : ∀ p ∈ iv, p.1 < 2 ^ 63 := fun p hp => h.lt _ (hperm.mem_iff.1
      (List.mem_append_left _ (List.mem_append_right _
        (hc.intervals_ok.mem_interval_nodes p hp))))
    obtain ⟨hcount, hlens⟩ := hc.intervals_ok.length_le
    have hall : ∀ p ∈ iv, p.1 < CODE_MAX ∧ p.2 < CODE_MAX := fun p hp =>
      ⟨lt_trans (hiv p hp) (by omega), by have := hlens p hp; omega⟩
    refine List.forall_mem_cons.2 ⟨?_, ?_⟩
    · change c.outdegree < CODE_MAX
      rw [hc.outdegree]
      omega
    simp only [List.forall_mem_append]
    refine ⟨⟨?_, ?_⟩, ?_⟩
    · exact write_reference_lt (hd.trans_lt hn) hlen hc
    · split
      · simp
      · rw [hc.intervals]
        unfold write_first_interval
        refine List.forall_mem_cons.2 ⟨by change iv.length < _; omega, ?_⟩
        cases iv with
        | nil => simp
        | cons p iv =>
          obtain ⟨hp, hrest⟩ := List.forall_mem_cons.1 hall
          refine List.forall_mem_cons.2 ⟨?_, List.forall_mem_cons.2 ⟨?_, ?_⟩⟩
          · exact to_nat_offset_lt dsi (hiv p List.mem_cons_self) hn
          · exact lt_of_le_of_lt (Nat.sub_le _ _) hp.2
          · exact write_intervals_lt _ _ hrest
    · have hres : ∀ x ∈ c.residuals, x < 2 ^ 63 := fun x hx => h.lt x (hc.residuals.subset hx)
      cases hr : c.residuals with
      | nil => simp [write_first_residual]
      | cons x xs =>
        rw [hr] at hres
        refine List.forall_mem_cons.2 ⟨to_nat_offset_lt dsi (hres x List.mem_cons_self) hn, ?_⟩
        exact write_residuals_lt _ _ fun y hy =>
          lt_trans (hres y (List.mem_cons_of_mem _ hy)) (by omega)

end Rbsc.BvGraph
