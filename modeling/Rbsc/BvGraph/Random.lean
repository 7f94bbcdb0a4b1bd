import Rbsc.BvGraph.Degrees

/-!
# BVGraph: random access

`BvGraph::labels`, which reads one node at its offset and returns an iterator `Succ` that merges the
nodes copied from the reference, the intervals and the residuals when it is asked for the next one.
The reference is such an iterator again, behind a `MaskedIterator` that lets the copied blocks pass.

* `MaskedIterator.yields`: the masked iterator gives the copied nodes;
* `Succ.yields`: the merge of the three parts is the list;
* `labels_yields`: the iterator of a node gives its successors, and needs one level more than the
  depth of the node.
-/

namespace Rbsc.BvGraph

open Arrays Decoding ForLoop

/-! ### `MaskedIterator` -/

/-- `MaskedIterator`. -/
structure MaskedIterator (ι : Type) where
  parent : ι
  blocks : List ℕ
  block_idx : ℕ
  size : ℕ

namespace MaskedIterator

variable {ι : Type} (parent_next : ι → Option (Option ℕ × ι))

/-- The number of nodes in the blocks of even index. -/
def copied_size : List ℕ → ℕ
  | [] => 0
  | [b] => b
  | b :: _ :: blocks => b + copied_size blocks

/-- `MaskedIterator::new`, with the length of the parent. -/
def new (len : ℕ) (parent : ι) (blocks : List ℕ) : Option (MaskedIterator ι) := do
  let remainder ← checked_sub len blocks.sum
  if remainder ≠ 0 ∧ blocks.length % 2 = 0 then
    some ⟨parent, blocks ++ [remainder], 0, copied_size blocks + remainder⟩
  else some ⟨parent, blocks, 0, copied_size blocks⟩

/-- The loop that takes the nodes of a block from the parent. -/
def skip : ℕ → ι → Option ι
  | 0, parent => some parent
  | n + 1, parent => do
    let (_, parent) ← parent_next parent
    skip n parent

/-- The end of `next`: the next node of the parent, in the block at `idx`. -/
def take (it : MaskedIterator ι) (parent : ι) (idx : ℕ) :
    Option (Option ℕ × MaskedIterator ι) := do
  let current_block ← it.blocks[idx]?
  let (result, parent) ← parent_next parent
  let left ← checked_sub current_block 1
  some (result, { it with parent := parent, blocks := it.blocks.set idx left, block_idx := idx })

/-- `MaskedIterator::next`. -/
def next (it : MaskedIterator ι) : Option (Option ℕ × MaskedIterator ι) := do
  let current_block ← it.blocks[it.block_idx]?
  if current_block = 0 then
    -- the block to skip, if there is one
    match it.blocks[it.block_idx + 1]? with
    | none => some (none, { it with block_idx := it.block_idx + 1 })
    | some skipped =>
      let parent ← skip parent_next skipped it.parent
      take parent_next it parent (it.block_idx + 2)
  else take parent_next it it.parent it.block_idx

end MaskedIterator

/-! ### `Succ` -/

/-- `usize::MAX`. -/
def USIZE_MAX : ℕ := 2 ^ 64 - 1

/-- `Succ`. -/
structure Succ (σ : Type) where
  reader : σ
  size : ℕ
  copied_nodes_iter : Option (MaskedIterator (Succ σ))
  intervals : List (ℕ × ℕ)
  intervals_idx : ℕ
  residuals_to_go : ℕ
  next_residual_node : ℕ
  next_copied_node : ℕ
  next_interval_node : ℕ

/-- `Succ::new`. -/
def Succ.new {σ : Type} (reader : σ) : Succ σ where
  reader := reader
  size := 0
  copied_nodes_iter := none
  intervals := []
  intervals_idx := 0
  residuals_to_go := 0
  next_residual_node := USIZE_MAX
  next_copied_node := USIZE_MAX
  next_interval_node := USIZE_MAX

section

variable {σ : Type} (dsi : DsiBitstream) (decoder : Component → StateT σ Option ℕ)

/-- `copied_nodes_iter.as_mut().and_then(|iter| iter.next())`. -/
def next_copied (succ_next : Succ σ → Option (Option ℕ × Succ σ)) :
    Option (MaskedIterator (Succ σ)) → Option (Option ℕ × Option (MaskedIterator (Succ σ)))
  | none => some (none, none)
  | some iter => (iter.next succ_next).map fun p => (p.1, some p.2)

/-- The step to the next node of the intervals: the node, and the intervals after it. -/
def take_interval (intervals : List (ℕ × ℕ)) (idx : ℕ) : Option (ℕ × List (ℕ × ℕ) × ℕ) := do
  let (start, len) ← intervals[idx]?
  let len ← checked_sub len 1
  some (start, intervals.set idx (start + 1, len), idx + if len = 0 then 1 else 0)

/-- `Succ::next`; `fuel` bounds the references that are followed. -/
def Succ.next : ℕ → Succ σ → Option (Option ℕ × Succ σ)
  | 0, _ => none
  | fuel + 1, s =>
    if s.size = 0 then some (none, s)
    else
      let least := min s.next_residual_node s.next_interval_node
      if s.next_copied_node ≤ least then do
        let (node, iter) ← next_copied (Succ.next fuel) s.copied_nodes_iter
        some (some s.next_copied_node,
          { s with
            size := s.size - 1
            copied_nodes_iter := iter
            next_copied_node := node.getD USIZE_MAX })
      else if least = s.next_residual_node then
        if s.residuals_to_go = 0 then
          some (some least, { s with size := s.size - 1, next_residual_node := USIZE_MAX })
        else do
          let (gap, reader) ← decoder .residual s.reader
          some (some least,
            { s with
              reader := reader
              size := s.size - 1
              residuals_to_go := s.residuals_to_go - 1
              next_residual_node := s.next_residual_node + (1 + gap) })
      else do
        let (start, intervals, idx) ← take_interval s.intervals s.intervals_idx
        some (some least,
          { s with
            size := s.size - 1
            intervals := intervals
            intervals_idx := idx
            next_interval_node := start })

/-- The blocks, in `labels`. -/
def read_blocks : StateT σ Option (List ℕ) := do
  let number_of_blocks ← decoder .block_count
  if number_of_blocks = 0 then pure []
  else
    let first ← decoder .block
    let rest ← read_next_blocks (number_of_blocks - 1)
    pure (first :: rest)
where
  /-- The loop over the blocks after the first. -/
  read_next_blocks : ℕ → StateT σ Option (List ℕ)
  | 0 => pure []
  | todo + 1 => do
    let block ← decoder .block
    let rest ← read_next_blocks todo
    pure ((block + 1) :: rest)

/-- The reference and the iterator over the nodes that are copied, in `labels`. -/
def read_masked (compression_window : ℕ) (successors : ℕ → Option (Succ σ)) (node_id : ℕ) :
    StateT σ Option (Option (MaskedIterator (Succ σ))) := do
  let ref_delta ← read_ref_delta decoder compression_window
  if ref_delta ≠ 0 then
    let reference_node_id ← StateT.lift (checked_sub node_id ref_delta)
    let neighbours ← StateT.lift (successors reference_node_id)
    let blocks ← read_blocks decoder
    let iter ← StateT.lift (MaskedIterator.new neighbours.size neighbours blocks)
    pure (some iter)
  else pure none

/-- The first residual, in `labels`. -/
def read_first_residual (node_id nodes_left_to_decode : ℕ) : StateT σ Option ℕ :=
  if nodes_left_to_decode ≠ 0 then do
    let offset ← decoder .first_residual
    pure (offset_node node_id (dsi.to_int offset))
  else pure USIZE_MAX

/-- The first node of the intervals, in `labels`: a last interval is added, so that there is always
one after the node that is taken. -/
def first_interval (intervals : List (ℕ × ℕ)) : Option (ℕ × List (ℕ × ℕ) × ℕ) :=
  if intervals = [] then some (USIZE_MAX, [], 0)
  else take_interval (intervals ++ [(USIZE_MAX - 1, 1)]) 0

/-- The body of `labels`, with the calls of `successors` and of `next` as parameters; the reader is
put into the result at the end. -/
def labels_body (compression_window min_interval_length : ℕ) (successors : ℕ → Option (Succ σ))
    (succ_next : Succ σ → Option (Option ℕ × Succ σ)) (node_id : ℕ) :
    StateT σ Option (σ → Succ σ) := do
  let degree ← decoder .outdegree
  if degree = 0 then pure Succ.new
  else
    let copied ← read_masked decoder compression_window successors node_id
    let left ← StateT.lift (checked_sub degree (copied.elim 0 MaskedIterator.size))
    let intervals ← read_intervals dsi decoder min_interval_length node_id left
    let left ← StateT.lift (checked_sub left (intervals.map Prod.snd).sum)
    let next_residual_node ← read_first_residual dsi decoder node_id left
    let first ← StateT.lift (first_interval intervals)
    let next ← StateT.lift (next_copied succ_next copied)
    pure fun reader =>
      { reader := reader
        size := degree
        copied_nodes_iter := next.2
        intervals := first.2.1
        intervals_idx := first.2.2
        residuals_to_go := left - 1
        next_residual_node := next_residual_node
        next_copied_node := next.1.getD USIZE_MAX
        next_interval_node := first.1 }

/-- `labels`, with the decoder of each node; `fuel` bounds the references that are followed. -/
def labels (compression_window min_interval_length : ℕ) (new_decoder : ℕ → σ) :
    ℕ → ℕ → Option (Succ σ)
  | 0, _ => none
  | fuel + 1, node_id => do
    let (succ, reader) ← labels_body dsi decoder compression_window min_interval_length
      (labels compression_window min_interval_length new_decoder fuel)
      (Succ.next decoder fuel) node_id (new_decoder node_id)
    some (succ reader)

/-- `successors(node_id).collect()`. -/
def successors (compression_window min_interval_length : ℕ) (new_decoder : ℕ → σ)
    (fuel node_id : ℕ) : Option (List ℕ) := do
  let s ← labels dsi decoder compression_window min_interval_length new_decoder fuel node_id
  collect (Succ.next decoder fuel) (s.size + 1) s

/-- `BvGraph::iter_from`. -/
def iter_from (number_of_nodes compression_window min_interval_length : ℕ) (new_decoder : ℕ → σ)
    (fuel start_node : ℕ) : Option (Iter σ) := do
  let backrefs ← (List.Ico (start_node - compression_window) start_node).foldlM
    (fun (b : CircularBuffer (List ℕ)) node_id => do
      let l ← successors dsi decoder compression_window min_interval_length new_decoder fuel node_id
      some (b.replace node_id l))
    (CircularBuffer.new compression_window [])
  some
    { number_of_nodes := number_of_nodes
      compression_window := compression_window
      min_interval_length := min_interval_length
      decoder := new_decoder start_node
      backrefs := backrefs
      current_node := start_node }

end

/-! ### The copied nodes -/

namespace MaskedIterator

variable {ι : Type} {parent_next : ι → Option (Option ℕ × ι)}

theorem skip_eq {l : List ℕ} {parent : ι} (h : Yields parent_next l parent) {n : ℕ}
    (hn : n ≤ l.length) :
    ∃ parent', skip parent_next n parent = some parent' ∧ Yields parent_next (l.drop n) parent' := by
  induction n generalizing l parent with
  | zero => exact ⟨parent, rfl, h⟩
  | succ n ih =>
    cases l with
    | nil => simp at hn
    | cons a l =>
      obtain ⟨parent₁, hnext, hl⟩ := yields_cons.1 h
      obtain ⟨parent', hskip, hdrop⟩ := ih hl (by simpa using hn)
      exact ⟨parent', by simp [skip, hnext, hskip], hdrop⟩

theorem take_eq (it : MaskedIterator ι) {parent : ι} (pre : List ℕ) {bs l : List ℕ} {cur a : ℕ}
    (hblocks : it.blocks = pre ++ cur :: bs) (hcur : 0 < cur)
    (h : Yields parent_next (a :: l) parent) :
    ∃ parent', take parent_next it parent pre.length =
        some (some a, ⟨parent', pre ++ (cur - 1) :: bs, pre.length, it.size⟩) ∧
      Yields parent_next l parent' := by
  obtain ⟨parent', hnext, hl⟩ := yields_cons.1 h
  refine ⟨parent', ?_, hl⟩
  simp [take, hblocks, hnext, checked_sub, Nat.one_le_iff_ne_zero.2 hcur.ne']

/-- The iterator in a block of which `cur` nodes are left, before the blocks `bs`. -/
theorem yields_from (pre : List ℕ) (n : ℕ) {cur : ℕ} {bs l : List ℕ} {it : MaskedIterator ι}
    (hn : cur + bs.sum = n) (hblocks : it.blocks = pre ++ cur :: bs)
    (hidx : it.block_idx = pre.length) (h : Yields parent_next l it.parent)
    (hpar : bs.length % 2 = 0) (hpos : ∀ b ∈ bs, 0 < b) (hsum : cur + bs.sum ≤ l.length) :
    Yields (next parent_next) (take_blocks true (cur :: bs) l) it := by
  induction n using Nat.strong_induction_on generalizing cur bs l pre it with
  | _ n ih =>
    by_cases hcur : cur = 0
    · subst hcur
      match bs, hpar with
      | [], _ =>
        refine Yields.nil (t := { it with block_idx := it.block_idx + 1 }) ?_
        simp [next, hblocks, hidx]
      | skipped :: c :: bs, hpar =>
        obtain ⟨hs, hc, hpos⟩ : 0 < skipped ∧ 0 < c ∧ ∀ b ∈ bs, 0 < b := by simpa using hpos
        simp only [List.sum_cons, List.length_cons] at hsum hn hpar
        obtain ⟨parent₁, hskip, hl⟩ := skip_eq h (show skipped ≤ l.length by omega)
        obtain ⟨a, l', hal⟩ := List.exists_cons_of_length_pos
          (show 0 < (l.drop skipped).length by rw [List.length_drop]; omega)
        have hlen := congrArg List.length hal
        simp only [List.length_drop, List.length_cons] at hlen
        rw [hal] at hl
        obtain ⟨parent', htake, hl'⟩ := take_eq it (pre ++ [0, skipped])
          (by simpa using hblocks) hc hl
        have hnext : it.next parent_next = some (some a,
            ⟨parent', (pre ++ [0, skipped]) ++ (c - 1) :: bs, (pre ++ [0, skipped]).length,
              it.size⟩) := by
          rw [← htake]
          simp [next, hblocks, hidx, hskip]
        have htail : take_blocks true (0 :: skipped :: c :: bs) l =
            a :: take_blocks true ((c - 1) :: bs) l' := by
          obtain ⟨c, rfl⟩ : ∃ k, c = k + 1 := ⟨c - 1, by omega⟩
          simp [take_blocks, hal]
        rw [htail]
        exact (ih (c - 1 + bs.sum) (by omega) _ rfl rfl rfl hl' (by omega) hpos (by omega)).cons hnext
      | [_], hpar => simp at hpar
    · obtain ⟨a, l', rfl⟩ := List.exists_cons_of_length_pos (show 0 < l.length by omega)
      rw [List.length_cons] at hsum
      obtain ⟨parent', htake, hl'⟩ := take_eq it pre hblocks (Nat.pos_of_ne_zero hcur) h
      have hnext : it.next parent_next =
          some (some a, ⟨parent', pre ++ (cur - 1) :: bs, pre.length, it.size⟩) := by
        rw [← htake]
        simp [next, hblocks, hidx, hcur]
      have htail : take_blocks true (cur :: bs) (a :: l') =
          a :: take_blocks true ((cur - 1) :: bs) l' := by
        obtain ⟨c, rfl⟩ : ∃ k, cur = k + 1 := ⟨cur - 1, by omega⟩
        simp [take_blocks]
      rw [htail]
      exact (ih (cur - 1 + bs.sum) (by omega) _ rfl rfl rfl hl' hpar hpos (by omega)).cons hnext

theorem take_blocks_concat (copying : Bool) (blocks l : List ℕ)
    (hpar : copying = decide (blocks.length % 2 = 0)) {rest : ℕ}
    (hrest : blocks.sum + rest = l.length) :
    take_blocks copying (blocks ++ [rest]) l = take_blocks copying blocks l := by
  induction blocks generalizing copying l with
  | nil =>
    subst hpar
    have hlen : l.length ≤ rest := by simpa using hrest.ge
    simp [take_blocks, List.take_of_length_le hlen]
  | cons b blocks ih =>
    rw [List.sum_cons] at hrest
    rw [List.cons_append, take_blocks, take_blocks, ih]
    · cases copying <;> simp_all [List.length_cons] <;> omega
    · rw [List.length_drop]
      omega

theorem length_take_blocks (blocks l : List ℕ) (hodd : blocks.length % 2 = 1)
    (hsum : blocks.sum ≤ l.length) :
    (take_blocks true blocks l).length = copied_size blocks := by
  induction blocks using copied_size.induct generalizing l with
  | case1 => simp at hodd
  | case2 b => simpa [take_blocks, copied_size] using hsum
  | case3 b c blocks ih =>
    simp only [List.sum_cons, List.length_cons] at hsum hodd
    have h := ih (l.drop (b + c)) (by omega) (by rw [List.length_drop]; omega)
    have hb : min b l.length = b := by omega
    simp [take_blocks, copied_size, hb, ← h, List.drop_drop]

theorem copied_size_concat {blocks : List ℕ} (hpar : blocks.length % 2 = 0) {rest : ℕ} :
    copied_size (blocks ++ [rest]) = copied_size blocks + rest := by
  induction blocks using copied_size.induct with
  | case1 => simp [copied_size]
  | case2 b => simp at hpar
  | case3 b c blocks ih =>
    simp only [List.length_cons] at hpar
    simp [copied_size, ih (by omega), Nat.add_assoc]

/-- **The masked iterator gives the copied nodes.** -/
theorem new_yields {blocks l : List ℕ} {parent : ι} (h : Yields parent_next l parent)
    (hpos : ∀ b ∈ blocks.tail, 0 < b) (hsum : blocks.sum ≤ l.length)
    (hrest : blocks.length % 2 = 0 → blocks.sum < l.length) :
    ∃ it, new l.length parent blocks = some it ∧
      Yields (next parent_next) (take_blocks true blocks l) it ∧
      it.size = (take_blocks true blocks l).length := by
  have hsub : checked_sub l.length blocks.sum = some (l.length - blocks.sum) := if_pos hsum
  -- with the last block there is an odd number of them
  obtain ⟨blocks', hnew, hodd, hpos', hsum', htake⟩ : ∃ blocks',
      new l.length parent blocks = some ⟨parent, blocks', 0, copied_size blocks'⟩ ∧
      blocks'.length % 2 = 1 ∧ (∀ b ∈ blocks'.tail, 0 < b) ∧ blocks'.sum ≤ l.length ∧
      take_blocks true blocks' l = take_blocks true blocks l := by
    by_cases hpar : blocks.length % 2 = 0
    · have hlt := hrest hpar
      refine ⟨blocks ++ [l.length - blocks.sum], ?_, ?_, ?_, ?_, ?_⟩
      · simp [new, hsub, hpar, copied_size_concat hpar, show l.length - blocks.sum ≠ 0 by omega]
      · simp only [List.length_append, List.length_singleton]
        omega
      · cases blocks with
        | nil => simp
        | cons b bs =>
          simp only [List.cons_append, List.tail_cons, List.mem_append, List.mem_singleton]
          rintro b' (hb | rfl)
          · exact hpos b' hb
          · omega
      · simp only [List.sum_append, List.sum_singleton]
        omega
      · exact take_blocks_concat true blocks l (by simpa using hpar) (by omega)
    · exact ⟨blocks, by simp [new, hsub, hpar], by omega, hpos, hsum, rfl⟩
  refine ⟨_, hnew, ?_, ?_⟩
  · rw [← htake]
    obtain ⟨cur, bs, rfl⟩ := List.exists_cons_of_length_pos (show 0 < blocks'.length by omega)
    rw [List.length_cons] at hodd
    exact yields_from [] _ rfl rfl rfl h (by omega) hpos' (by simpa using hsum')
  · rw [← htake, length_take_blocks _ _ hodd hsum']

end MaskedIterator

/-! ### The merge -/

section

variable {σ : Type} {decoder : Component → StateT σ Option ℕ}

/-- The nodes to copy that are left, the first of them in `next_copied_node`. -/
def HoldsCopied (succ_next : Succ σ → Option (Option ℕ × Succ σ)) (next_copied_node : ℕ)
    (copied_nodes_iter : Option (MaskedIterator (Succ σ))) : List ℕ → Prop
  | [] => next_copied_node = USIZE_MAX
  | c :: copied => next_copied_node = c ∧ ∃ iter, copied_nodes_iter = some iter ∧
      Yields (MaskedIterator.next succ_next) copied iter

/-- The nodes of intervals that are left, the first of them in `next_interval_node`. -/
def HoldsIntervals (next_interval_node : ℕ) (intervals : List (ℕ × ℕ)) (intervals_idx : ℕ) :
    List ℕ → Prop
  | [] => USIZE_MAX - 1 ≤ next_interval_node
  | x :: nodes => next_interval_node = x ∧ ∃ done pending,
      intervals = done ++ (pending ++ [(USIZE_MAX - 1, 1)]) ∧ intervals_idx = done.length ∧
      (∀ p ∈ pending, 0 < p.2) ∧ interval_nodes pending = nodes

/-- The residuals that are left, the first of them in `next_residual_node`. -/
def HoldsResiduals (decoder : Component → StateT σ Option ℕ) (next_residual_node residuals_to_go : ℕ)
    (reader : σ) : List ℕ → Prop
  | [] => next_residual_node = USIZE_MAX
  | x :: residuals => next_residual_node = x ∧ residuals_to_go = residuals.length ∧
      (x :: residuals).Pairwise (· < ·) ∧
      ∃ s, Supplies decoder (write_residuals x residuals) reader s

theorem HoldsCopied.next {succ_next : Succ σ → Option (Option ℕ × Succ σ)} {copied : List ℕ}
    {iter : MaskedIterator (Succ σ)} (h : Yields (MaskedIterator.next succ_next) copied iter) :
    ∃ node iter', next_copied succ_next (some iter) = some (node, iter') ∧
      HoldsCopied succ_next (node.getD USIZE_MAX) iter' copied := by
  cases copied with
  | nil =>
    obtain ⟨_, rfl, iter', hnext⟩ := h
    exact ⟨none, some iter', by simp [next_copied, hnext], rfl⟩
  | cons c copied =>
    obtain ⟨iter', hnext, hrest⟩ := yields_cons.1 h
    exact ⟨some c, some iter', by simp [next_copied, hnext], rfl, iter', rfl, hrest⟩

theorem HoldsIntervals.next (done pending : List (ℕ × ℕ)) (hpos : ∀ p ∈ pending, 0 < p.2) :
    ∃ start intervals idx,
      take_interval (done ++ (pending ++ [(USIZE_MAX - 1, 1)])) done.length =
        some (start, intervals, idx) ∧
      HoldsIntervals start intervals idx (interval_nodes pending) := by
  cases pending with
  | nil =>
    exact ⟨USIZE_MAX - 1, done ++ [(USIZE_MAX - 1 + 1, 0)], done.length + 1,
      by simp [take_interval, checked_sub], le_rfl⟩
  | cons p pending =>
    obtain ⟨start, len⟩ := p
    obtain ⟨hlen, hrest⟩ := List.forall_mem_cons.1 hpos
    obtain ⟨len, rfl⟩ : ∃ k, len = k + 1 := ⟨len - 1, by simp at hlen; omega⟩
    have hnodes : interval_nodes ((start, len + 1) :: pending) =
        start :: interval_nodes ((start + 1, len) :: pending) := by
      simp [interval_nodes, List.range'_succ]
    refine ⟨start, done ++ ((start + 1, len) :: (pending ++ [(USIZE_MAX - 1, 1)])),
      done.length + if len = 0 then 1 else 0, by simp [take_interval, checked_sub], ?_⟩
    rw [hnodes]
    refine ⟨rfl, ?_⟩
    by_cases h0 : len = 0
    · subst h0
      exact ⟨done ++ [(start + 1, 0)], pending, by simp, by simp, hrest, by simp [interval_nodes]⟩
    · refine ⟨done, (start + 1, len) :: pending, by simp, by simp [h0], ?_, rfl⟩
      exact List.forall_mem_cons.2 ⟨Nat.pos_of_ne_zero h0, hrest⟩

/-- The least number of a list in increasing order comes first. -/
theorem cons_of_mem_least {a : ℕ} {l : List ℕ} (hl : l.Pairwise (· < ·)) (ha : a ∈ l)
    (hle : ∀ x ∈ l, a ≤ x) : ∃ l', l = a :: l' := by
  cases l with
  | nil => cases ha
  | cons b l =>
    obtain rfl | hmem := List.mem_cons.1 ha
    · exact ⟨l, rfl⟩
    · have := List.rel_of_pairwise_cons hl hmem
      have := hle b List.mem_cons_self
      omega

/-- The least number of three lists is the first of one of them, and is less than all numbers of
the others. -/
theorem least_cases {a : ℕ} {l C I R : List ℕ} (hl : (a :: l).Pairwise (· < ·))
    (hperm : (a :: l).Perm (C ++ (I ++ R))) (hC : C.Pairwise (· < ·)) (hI : I.Pairwise (· < ·))
    (hR : R.Pairwise (· < ·)) :
    (∃ C', C = a :: C' ∧ l.Perm (C' ++ (I ++ R)) ∧ (∀ x ∈ I, a < x) ∧ ∀ x ∈ R, a < x) ∨
    (∃ I', I = a :: I' ∧ l.Perm (C ++ (I' ++ R)) ∧ (∀ x ∈ C, a < x) ∧ ∀ x ∈ R, a < x) ∨
    (∃ R', R = a :: R' ∧ l.Perm (C ++ (I ++ R')) ∧ (∀ x ∈ C, a < x) ∧ ∀ x ∈ I, a < x) := by
  have hle : ∀ x ∈ C ++ (I ++ R), a ≤ x := by
    intro x hx
    obtain rfl | hmem := List.mem_cons.1 (hperm.mem_iff.2 hx)
    · exact le_rfl
    · exact (List.rel_of_pairwise_cons hl hmem).le
  have hnodup : (C ++ (I ++ R)).Nodup := hperm.nodup_iff.1 (hl.imp ne_of_lt)
  simp only [List.mem_append, or_imp, forall_and] at hle
  obtain ⟨hleC, hleI, hleR⟩ := hle
  simp only [List.nodup_append, List.mem_append] at hnodup
  obtain ⟨-, ⟨-, -, hIR⟩, hCIR⟩ := hnodup
  have hmem : a ∈ C ++ (I ++ R) := hperm.mem_iff.1 List.mem_cons_self
  simp only [List.mem_append] at hmem
  obtain hmem | hmem | hmem := hmem
  · obtain ⟨C', rfl⟩ := cons_of_mem_least hC hmem hleC
    exact Or.inl ⟨C', rfl, hperm.cons_inv,
      fun x hx => lt_of_le_of_ne (hleI x hx) (hCIR a hmem x (Or.inl hx)),
      fun x hx => lt_of_le_of_ne (hleR x hx) (hCIR a hmem x (Or.inr hx))⟩
  · obtain ⟨I', rfl⟩ := cons_of_mem_least hI hmem hleI
    refine Or.inr (Or.inl ⟨I', rfl, (hperm.trans List.perm_middle).cons_inv, ?_, ?_⟩)
    · exact fun x hx => lt_of_le_of_ne (hleC x hx) (hCIR x hx a (Or.inl hmem)).symm
    · exact fun x hx => lt_of_le_of_ne (hleR x hx) (hIR a hmem x hx)
  · obtain ⟨R', rfl⟩ := cons_of_mem_least hR hmem hleR
    refine Or.inr (Or.inr ⟨R', rfl, ?_, ?_, ?_⟩)
    · rw [← List.append_assoc] at hperm ⊢
      exact (hperm.trans List.perm_middle).cons_inv
    · exact fun x hx => lt_of_le_of_ne (hleC x hx) (hCIR x hx a (Or.inr hmem)).symm
    · exact fun x hx => lt_of_le_of_ne (hleI x hx) (hIR x hx a hmem).symm

/-- The three parts of the list that an iterator has left. -/
structure Succ.Holds (decoder : Component → StateT σ Option ℕ) (fuel : ℕ) (s : Succ σ)
    (C I R : List ℕ) : Prop where
  copied : HoldsCopied (Succ.next decoder fuel) s.next_copied_node s.copied_nodes_iter C
  intervals : HoldsIntervals s.next_interval_node s.intervals s.intervals_idx I
  residuals : HoldsResiduals decoder s.next_residual_node s.residuals_to_go s.reader R

theorem Succ.Holds.lt_copied {fuel a : ℕ} {s : Succ σ} {C I R : List ℕ}
    (h : s.Holds decoder fuel C I R) (ha : a < USIZE_MAX - 1) (hC : ∀ x ∈ C, a < x) :
    a < s.next_copied_node := by
  have := h.copied
  cases C with
  | nil =>
    change s.next_copied_node = _ at this
    omega
  | cons c C => exact this.1 ▸ hC c List.mem_cons_self

theorem Succ.Holds.lt_interval {fuel a : ℕ} {s : Succ σ} {C I R : List ℕ}
    (h : s.Holds decoder fuel C I R) (ha : a < USIZE_MAX - 1) (hI : ∀ x ∈ I, a < x) :
    a < s.next_interval_node := by
  have := h.intervals
  cases I with
  | nil => exact ha.trans_le this
  | cons x I => exact this.1 ▸ hI x List.mem_cons_self

theorem Succ.Holds.lt_residual {fuel a : ℕ} {s : Succ σ} {C I R : List ℕ}
    (h : s.Holds decoder fuel C I R) (ha : a < USIZE_MAX - 1) (hR : ∀ x ∈ R, a < x) :
    a < s.next_residual_node := by
  have := h.residuals
  cases R with
  | nil =>
    change s.next_residual_node = _ at this
    omega
  | cons x R => exact this.1 ▸ hR x List.mem_cons_self

/-- The step when the least node is one to copy. -/
theorem Succ.next_copied_eq {fuel a : ℕ} {s : Succ σ} {C I R : List ℕ}
    (h : s.Holds decoder fuel (a :: C) I R) (hsize : s.size ≠ 0) (ha : a < USIZE_MAX - 1)
    (hI : ∀ x ∈ I, a < x) (hR : ∀ x ∈ R, a < x) :
    ∃ s', s.next decoder (fuel + 1) = some (some a, s') ∧ s'.size = s.size - 1 ∧
      s'.Holds decoder fuel C I R := by
  obtain ⟨hnode, iter, hiter, hyields⟩ := h.copied
  obtain ⟨node, iter', hnext, hholds⟩ := HoldsCopied.next hyields
  have h1 := h.lt_interval ha hI
  have h2 := h.lt_residual ha hR
  have hstep : s.next decoder (fuel + 1) = some (some a,
      { s with
        size := s.size - 1
        copied_nodes_iter := iter'
        next_copied_node := node.getD USIZE_MAX }) := by
    rw [Succ.next, if_neg hsize]
    simp only [hnode, hiter, hnext, Option.bind_eq_bind, Option.bind_some]
    rw [if_pos (by omega)]
  exact ⟨_, hstep, rfl, hholds, h.intervals, h.residuals⟩

/-- The step when the least node is in an interval. -/
theorem Succ.next_interval_eq {fuel a : ℕ} {s : Succ σ} {C I R : List ℕ}
    (h : s.Holds decoder fuel C (a :: I) R) (hsize : s.size ≠ 0) (ha : a < USIZE_MAX - 1)
    (hC : ∀ x ∈ C, a < x) (hR : ∀ x ∈ R, a < x) :
    ∃ s', s.next decoder (fuel + 1) = some (some a, s') ∧ s'.size = s.size - 1 ∧
      s'.Holds decoder fuel C I R := by
  obtain ⟨hnode, done, pending, hints, hidx, hpos, hnodes⟩ := h.intervals
  obtain ⟨start, intervals, idx, htake, hholds⟩ := HoldsIntervals.next done pending hpos
  have h1 := h.lt_copied ha hC
  have h2 := h.lt_residual ha hR
  rw [hnodes] at hholds
  have hleast : min s.next_residual_node s.next_interval_node = a := by omega
  have hstep : s.next decoder (fuel + 1) = some (some a,
      { s with
        size := s.size - 1
        intervals := intervals
        intervals_idx := idx
        next_interval_node := start }) := by
    rw [Succ.next, if_neg hsize]
    simp only [hleast, hints, hidx, htake, Option.bind_eq_bind, Option.bind_some]
    rw [if_neg (by omega), if_neg (by omega)]
  exact ⟨_, hstep, rfl, h.copied, hholds, h.residuals⟩

/-- The step when the least node is a residual. -/
theorem Succ.next_residual_eq {fuel a : ℕ} {s : Succ σ} {C I R : List ℕ}
    (h : s.Holds decoder fuel C I (a :: R)) (hsize : s.size ≠ 0) (ha : a < USIZE_MAX - 1)
    (hC : ∀ x ∈ C, a < x) (hI : ∀ x ∈ I, a < x) :
    ∃ s', s.next decoder (fuel + 1) = some (some a, s') ∧ s'.size = s.size - 1 ∧
      s'.Holds decoder fuel C I R := by
  obtain ⟨hnode, hgo, hsorted, t, hsup⟩ := h.residuals
  have h1 := h.lt_copied ha hC
  have h2 := h.lt_interval ha hI
  have hleast : min s.next_residual_node s.next_interval_node = a := by omega
  rw [Succ.next, if_neg hsize]
  simp only [hleast]
  rw [if_neg (by omega), if_pos hnode.symm]
  cases R with
  | nil =>
    rw [if_pos (show s.residuals_to_go = 0 from hgo)]
    exact ⟨_, rfl, rfl, h.copied, h.intervals, rfl⟩
  | cons x R =>
    obtain ⟨reader, hread, hrest⟩ := hsup
    have hx := List.rel_of_pairwise_cons hsorted (List.mem_cons_self (a := x))
    rw [if_neg (by rw [hgo]; simp)]
    simp only [hread, Option.bind_eq_bind, Option.bind_some]
    refine ⟨_, rfl, rfl, h.copied, h.intervals, ?_, ?_, (List.pairwise_cons.1 hsorted).2, t, hrest⟩
    · change s.next_residual_node + (1 + (x - a - 1)) = x
      omega
    · change s.residuals_to_go - 1 = R.length
      rw [hgo, List.length_cons, Nat.add_sub_cancel]

/-- **The iterator merges its three parts.** -/
theorem Succ.yields {fuel : ℕ} {l C I R : List ℕ} {s : Succ σ} (hl : l.Pairwise (· < ·))
    (hmax : ∀ x ∈ l, x < USIZE_MAX - 1) (hperm : l.Perm (C ++ (I ++ R)))
    (hC : C.Pairwise (· < ·)) (hI : I.Pairwise (· < ·)) (hR : R.Pairwise (· < ·))
    (hsize : s.size = l.length) (h : s.Holds decoder fuel C I R) :
    Yields (Succ.next decoder (fuel + 1)) l s := by
  induction l generalizing C I R s with
  | nil =>
    refine Yields.nil (t := s) ?_
    rw [Succ.next, if_pos (show s.size = 0 from hsize)]
  | cons a l ih =>
    have h0 : s.size ≠ 0 := by simp [hsize]
    have ha := hmax a List.mem_cons_self
    have hl' := (List.pairwise_cons.1 hl).2
    have hmax' : ∀ x ∈ l, x < USIZE_MAX - 1 := fun x hx => hmax x (List.mem_cons_of_mem _ hx)
    have hsize' : ∀ s' : Succ σ, s'.size = s.size - 1 → s'.size = l.length := by
      intro s' hs'
      rw [hs', hsize, List.length_cons, Nat.add_sub_cancel]
    obtain ⟨C', rfl, hp, h1, h2⟩ | ⟨I', rfl, hp, h1, h2⟩ | ⟨R', rfl, hp, h1, h2⟩ :=
      least_cases hl hperm hC hI hR
    · obtain ⟨s', hnext, hs', hh⟩ := Succ.next_copied_eq h h0 ha h1 h2
      exact (ih hl' hmax' hp (List.pairwise_cons.1 hC).2 hI hR (hsize' s' hs') hh).cons hnext
    · obtain ⟨s', hnext, hs', hh⟩ := Succ.next_interval_eq h h0 ha h1 h2
      exact (ih hl' hmax' hp hC (List.pairwise_cons.1 hI).2 hR (hsize' s' hs') hh).cons hnext
    · obtain ⟨s', hnext, hs', hh⟩ := Succ.next_residual_eq h h0 ha h1 h2
      exact (ih hl' hmax' hp hC hI (List.pairwise_cons.1 hR).2 (hsize' s' hs') hh).cons hnext

/-! ### `labels` -/

theorem read_next_blocks_reads (blocks : List ℕ) (hpos : ∀ b ∈ blocks, 0 < b) :
    Reads decoder (read_blocks.read_next_blocks decoder blocks.length)
      (blocks.map fun b => (.block, b - 1)) blocks := by
  induction blocks with
  | nil => exact Reads.pure _
  | cons b blocks ih =>
    obtain ⟨hb, hpos⟩ := List.forall_mem_cons.1 hpos
    refine Reads.ask ?_
    rw [Nat.sub_add_cancel hb]
    exact (ih hpos).map _

theorem read_blocks_reads (blocks : List ℕ) (hpos : ∀ b ∈ blocks.tail, 0 < b) :
    Reads decoder (read_blocks decoder) ((.block_count, (blocks.modifyHead (· + 1)).length) ::
      (blocks.modifyHead (· + 1)).map fun b => (.block, b - 1)) blocks := by
  refine Reads.ask ?_
  cases blocks with
  | nil => exact Reads.pure _
  | cons b blocks =>
    simp only [List.modifyHead_cons, List.length_cons, List.map_cons, Nat.add_sub_cancel,
      if_neg (Nat.succ_ne_zero blocks.length)]
    exact Reads.ask ((read_next_blocks_reads blocks hpos).map _)

/-- An iterator that gives all of a list, and knows how long it is. -/
def Lists (succ_next : Succ σ → Option (Option ℕ × Succ σ)) (l : List ℕ) (s : Succ σ) : Prop :=
  Yields succ_next l s ∧ s.size = l.length

theorem read_masked_reads {w node m d : ℕ} {succ : ℕ → List ℕ}
    {successors : ℕ → Option (Succ σ)} {succ_next : Succ σ → Option (Option ℕ × Succ σ)}
    (hw : d ≤ w) (hd : d ≤ node)
    (href : d ≠ 0 → ∃ s, successors (node - d) = some s ∧ Lists succ_next (succ (node - d)) s)
    (hne : d ≠ 0 → succ (node - d) ≠ []) {curr : List ℕ} (hcurr : curr ≠ []) {c : Compressor}
    {iv : List (ℕ × ℕ)} (hc : Compressed curr (ref_list succ node d) m c iv) :
    ∃ copied next, Reads decoder (read_masked decoder w successors node)
        (c.write_reference (reference_offset w d)) copied ∧
      copied.elim 0 MaskedIterator.size = (copied_nodes curr (ref_list succ node d)).length ∧
      next_copied succ_next copied = some next ∧
      HoldsCopied succ_next (next.1.getD USIZE_MAX) next.2
        (copied_nodes curr (ref_list succ node d)) := by
  have hdeg : c.outdegree ≠ 0 := by
    rw [hc.outdegree]
    exact fun h => hcurr (List.length_eq_zero_iff.1 h)
  unfold Compressor.write_reference read_masked read_ref_delta reference_offset
  rw [if_neg hdeg]
  by_cases hd0 : d = 0
  · subst hd0
    refine ⟨none, (none, none), ?_, rfl, rfl, rfl⟩
    by_cases hw0 : w = 0
    · rw [if_pos hw0, if_neg (not_not.2 hw0)]
      exact Reads.bind_pure (Reads.pure _)
    · rw [if_neg hw0, if_pos hw0]
      exact Reads.ask (Reads.pure _)
  · have hrl : ref_list succ node d = some (succ (node - d)) := if_neg hd0
    obtain ⟨s, hs, hyields, hsize⟩ := href hd0
    have hsum := diff_comp_loop_sum curr (succ (node - d)) 0 true
    have htail := (diff_comp_loop_pos curr (succ (node - d)) 0 true).1
    have hrest := diff_comp_loop_rest curr (succ (node - d)) 0 true fun _ => Or.inr (hne hd0)
    rw [Nat.zero_add] at hsum hrest
    obtain ⟨iter, hnew, hiter, hisize⟩ := MaskedIterator.new_yields hyields htail hsum
      fun hpar => hrest (by simpa using hpar)
    obtain ⟨node', iter', hnext, hholds⟩ := HoldsCopied.next hiter
    rw [hrl] at hc ⊢
    refine ⟨some iter, (node', iter'), ?_, hisize, hnext, hholds⟩
    rw [if_neg (show w ≠ 0 by omega), if_pos (show w ≠ 0 by omega)]
    refine Reads.ask ?_
    rw [if_pos hd0, if_neg hd0]
    refine Reads.bind_lift (if_pos hd) (Reads.bind_lift hs ?_)
    rw [hc.blocks _ rfl]
    refine (Reads.bind (read_blocks_reads _ htail) ?_).congr (List.append_nil _)
    rw [hsize]
    exact Reads.bind_lift hnew (Reads.pure _)

theorem first_interval_holds {m : ℕ} {iv : List (ℕ × ℕ)} (hok : IntervalsOk m 0 iv) :
    ∃ first, first_interval iv = some first ∧
      HoldsIntervals first.1 first.2.1 first.2.2 (interval_nodes iv) := by
  cases iv with
  | nil =>
    refine ⟨_, rfl, ?_⟩
    change USIZE_MAX - 1 ≤ USIZE_MAX
    omega
  | cons p iv =>
    obtain ⟨start, intervals, idx, htake, hholds⟩ := HoldsIntervals.next [] (p :: iv) hok.pos
    exact ⟨_, htake, hholds⟩

/-- The calls of `write` for the residuals: the first, and those that the iterator reads later. -/
theorem first_residual_reads (dsi : DsiBitstream) {node : ℕ} (hn : node < 2 ^ 63)
    {residuals : List ℕ} (hs : residuals.Pairwise (· < ·)) (hlt : ∀ x ∈ residuals, x < 2 ^ 63) :
    ∃ first later next, write_first_residual dsi node residuals = first ++ later ∧
      Reads decoder (read_first_residual dsi decoder node residuals.length) first next ∧
      ∀ s s', Supplies decoder later s s' →
        HoldsResiduals decoder next (residuals.length - 1) s residuals := by
  cases residuals with
  | nil => exact ⟨[], [], USIZE_MAX, rfl, Reads.pure _, fun _ _ _ => rfl⟩
  | cons x xs =>
    refine ⟨[(.first_residual, dsi.to_nat (i64_offset x node))], write_residuals x xs, x, rfl, ?_,
      fun s s' h => ⟨rfl, rfl, hs, s', h⟩⟩
    rw [read_first_residual, if_pos (by simp)]
    refine Reads.ask ?_
    rw [offset_node_to_int dsi (hlt x List.mem_cons_self) hn]
    exact Reads.pure _

theorem sum_map_snd (iv : List (ℕ × ℕ)) : (iv.map Prod.snd).sum = (interval_nodes iv).length := by
  simp [interval_nodes, List.length_flatMap]

/-- The nodes of intervals come in increasing order. -/
theorem IntervalsOk.sorted {m lo : ℕ} {iv : List (ℕ × ℕ)} (h : IntervalsOk m lo iv) :
    (interval_nodes iv).Pairwise (· < ·) ∧ ∀ x ∈ interval_nodes iv, lo ≤ x := by
  induction iv generalizing lo with
  | nil => simp [interval_nodes]
  | cons p iv ih =>
    obtain ⟨left, len⟩ := p
    obtain ⟨hlo, -, -, hrest⟩ := h
    obtain ⟨hs, hle⟩ := ih hrest
    have hcons : interval_nodes ((left, len) :: iv) = List.range' left len ++ interval_nodes iv := by
      simp [interval_nodes]
    rw [hcons, List.pairwise_append]
    refine ⟨⟨List.pairwise_lt_range', hs, fun a ha b hb => ?_⟩, fun x hx => ?_⟩
    · have := (List.mem_range'_1.1 ha).2
      have := hle b hb
      omega
    · obtain hx | hx := List.mem_append.1 hx
      · have := (List.mem_range'_1.1 hx).1
        omega
      · have := hle x hx
        omega

/-- The copied nodes come in increasing order. -/
theorem copied_nodes_sorted {succ : ℕ → List ℕ} {node d : ℕ} (curr : List ℕ)
    (h : (succ (node - d)).Pairwise (· < ·)) :
    (copied_nodes curr (ref_list succ node d)).Pairwise (· < ·) := by
  unfold ref_list
  split
  · exact List.Pairwise.nil
  · exact h.sublist (take_blocks_sublist _ _ _)

/-- One node, with an iterator of the reference: `later` is left for the iterator to read. -/
theorem labels_body_reads (dsi : DsiBitstream) {w m node d fuel : ℕ} {succ : ℕ → List ℕ}
    {successors : ℕ → Option (Succ σ)} (hn : node < 2 ^ 63) (hw : d ≤ w) (hd : d ≤ node)
    (hs : ∀ i ≤ node, Successors (succ i))
    (href : d ≠ 0 → ∃ s, successors (node - d) = some s ∧
      Lists (Succ.next decoder fuel) (succ (node - d)) s)
    (hne : d ≠ 0 → succ (node - d) ≠ []) :
    ∃ now later mk, node_calls dsi w m succ node d = now ++ later ∧
      Reads decoder (labels_body dsi decoder w m successors (Succ.next decoder fuel) node) now mk ∧
      ∀ s s', Supplies decoder later s s' →
        Lists (Succ.next decoder (fuel + 1)) (succ node) (mk s) := by
  have hsucc := hs node le_rfl
  have hrefs := (hs (node - d) (Nat.sub_le _ _)).sorted
  unfold node_calls labels_body
  generalize succ node = curr at hsucc ⊢
  by_cases hcurr : curr = []
  · subst hcurr
    refine ⟨_, [], Succ.new, (List.append_nil _).symm, Reads.ask (Reads.pure _), fun s _ _ => ?_⟩
    refine ⟨Yields.nil (t := Succ.new s) ?_, rfl⟩
    rw [Succ.next, if_pos (show (Succ.new s).size = 0 from rfl)]
  · obtain ⟨iv, hc⟩ := compress_spec hcurr hsucc.sorted (ref_list succ node d) m
    generalize Compressor.compress curr (ref_list succ node d) m = c at hc ⊢
    obtain ⟨copied, next, hcopied, hsize, hnext, hC⟩ :=
      read_masked_reads hw hd href hne hcurr hc
    obtain ⟨first, hfirst, hI⟩ := first_interval_holds hc.intervals_ok
    have hperm := hc.perm
    have hextra := hc.extra.length_eq
    have hrest := hc.rest.length_eq
    simp only [List.length_append] at hextra hrest
    have hdeg : c.outdegree ≠ 0 := by
      rw [hc.outdegree]
      exact fun h => hcurr (List.length_eq_zero_iff.1 h)
    have hlt : ∀ x ∈ c.residuals, x < 2 ^ 63 := fun x hx => hsucc.lt x (hc.residuals.subset hx)
    have hres := hsucc.sorted.sublist hc.residuals
    obtain ⟨now, later, residual, hsplit, hread, hR⟩ := first_residual_reads dsi hn hres hlt
    have hleft : checked_sub c.outdegree (copied.elim 0 MaskedIterator.size) =
        some c.extra_nodes.length := by
      rw [hsize, hc.outdegree, ← hextra]
      exact checked_sub_add _ _
    have hleft' : checked_sub c.extra_nodes.length (iv.map Prod.snd).sum =
        some c.residuals.length := by
      rw [sum_map_snd, ← hrest]
      exact checked_sub_add _ _
    rw [Compressor.write, hsplit, ← List.append_assoc]
    refine ⟨_, later, fun reader =>
      { reader := reader
        size := c.outdegree
        copied_nodes_iter := next.2
        intervals := first.2.1
        intervals_idx := first.2.2
        residuals_to_go := c.residuals.length - 1
        next_residual_node := residual
        next_copied_node := next.1.getD USIZE_MAX
        next_interval_node := first.1 }, (List.cons_append ..).symm, Reads.ask ?_, fun s s' h => ?_⟩
    · rw [if_neg hdeg, List.append_assoc]
      refine Reads.bind hcopied (Reads.bind_lift hleft (Reads.bind (a := iv)
        (compressed_intervals_reads dsi decoder hn hc hsucc.lt) (Reads.bind_lift hleft' ?_)))
      refine (Reads.bind hread ?_).congr (List.append_nil _)
      exact Reads.bind_lift hfirst (Reads.bind_lift hnext (Reads.pure _))
    · refine ⟨Succ.yields hsucc.sorted (fun x hx => ?_) (List.append_assoc .. ▸ hperm.symm)
        (copied_nodes_sorted curr hrefs) hc.intervals_ok.sorted.1 hres hc.outdegree
        ⟨hC, hI, hR s s' h⟩, hc.outdegree⟩
      have := hsucc.lt x hx
      simp only [USIZE_MAX]
      omega

/-- **Random access.**  With one level more than the depth of a node its iterator gives the
successors. -/
theorem labels_lists (dsi : DsiBitstream) {w m max_ref_count n : ℕ} {succ : ℕ → List ℕ}
    {delta : ℕ → ℕ} (hd : Layout w max_ref_count succ 0 n delta) (hmax : n ≤ 2 ^ 63)
    (hs : ∀ i < n, Successors (succ i)) (new_decoder : ℕ → σ)
    (hdec : ∀ i < n, ∃ s', Supplies decoder (node_calls dsi w m succ i (delta i)) (new_decoder i) s')
    {fuel node : ℕ} (hnode : node < n) (hfuel : depth delta node < fuel) :
    ∃ s, labels dsi decoder w m new_decoder fuel node = some s ∧
      Lists (Succ.next decoder fuel) (succ node) s := by
  induction fuel generalizing node with
  | zero => omega
  | succ fuel ih =>
    have hfirst := hd.first node (Nat.zero_le _) (by omega)
    rw [Nat.zero_add] at hfirst
    have href : delta node ≠ 0 → ∃ s, labels dsi decoder w m new_decoder fuel (node - delta node) =
        some s ∧ Lists (Succ.next decoder fuel) (succ (node - delta node)) s := by
      intro h0
      rw [depth, if_pos ⟨Nat.pos_of_ne_zero h0, hfirst⟩] at hfuel
      exact ih (by omega) (by omega)
    obtain ⟨now, later, mk, hcalls, hreads, hlists⟩ := labels_body_reads (m := m) dsi
      (by omega : node < 2 ^ 63) (hd.window node (Nat.zero_le _) (by omega)) hfirst
      (fun i hi => hs i (by omega)) href (hd.target node (Nat.zero_le _) (by omega))
    obtain ⟨s', hsup⟩ := hdec node hnode
    rw [hcalls, supplies_append] at hsup
    obtain ⟨reader, hnow, hlater⟩ := hsup
    refine ⟨mk reader, ?_, hlists reader s' hlater⟩
    rw [labels]
    simp only [hreads _ _ hnow, Option.bind_eq_bind, Option.bind_some]

theorem successors_eq (dsi : DsiBitstream) {w m max_ref_count n : ℕ} {succ : ℕ → List ℕ}
    {delta : ℕ → ℕ} (hd : Layout w max_ref_count succ 0 n delta) (hmax : n ≤ 2 ^ 63)
    (hs : ∀ i < n, Successors (succ i)) (new_decoder : ℕ → σ)
    (hdec : ∀ i < n, ∃ s', Supplies decoder (node_calls dsi w m succ i (delta i)) (new_decoder i) s')
    {fuel node : ℕ} (hnode : node < n) (hfuel : max_ref_count < fuel) :
    successors dsi decoder w m new_decoder fuel node = some (succ node) := by
  have hdepth := hd.depth_le node (Nat.zero_le _) (by omega)
  obtain ⟨s, hlabels, hyields, hsize⟩ :=
    labels_lists dsi hd hmax hs new_decoder hdec hnode (by omega : depth delta node < fuel)
  have hcollect := hyields.collect (show (succ node).length < s.size + 1 by omega)
  simp only [successors, hlabels, Option.bind_eq_bind, Option.bind_some, hcollect]

/-- The window before a node, filled by random access. -/
theorem iter_from_eq (dsi : DsiBitstream) {w m max_ref_count n : ℕ} {succ : ℕ → List ℕ}
    {delta : ℕ → ℕ} (hd : Layout w max_ref_count succ 0 n delta) (hmax : n ≤ 2 ^ 63)
    (hs : ∀ i < n, Successors (succ i)) (new_decoder : ℕ → σ)
    (hdec : ∀ i < n, ∃ s', Supplies decoder (node_calls dsi w m succ i (delta i)) (new_decoder i) s')
    {fuel start : ℕ} (hstart : start ≤ n) (hfuel : max_ref_count < fuel) :
    ∃ it, iter_from dsi decoder n w m new_decoder fuel start = some it ∧ it.Ok succ ∧
      it.number_of_nodes = n ∧ it.compression_window = w ∧ it.min_interval_length = m ∧
      it.current_node = start ∧ it.decoder = new_decoder start := by
  have hfill := foldlM_some (l := List.Ico (start - w) start)
    (f := fun (b : CircularBuffer (List ℕ)) node_id => do
      let l ← successors dsi decoder w m new_decoder fuel node_id
      some (b.replace node_id l))
    (fun i hi b => by
      have := (List.Ico.mem.1 hi).2
      simp only [successors_eq dsi hd hmax hs new_decoder hdec (by omega : i < n) hfuel,
        Option.bind_eq_bind, Option.bind_some]
      rfl) (CircularBuffer.new w [])
  have hnear : ((List.Ico (start - w) start).foldl (fun b i => b.replace i (succ i))
      (CircularBuffer.new w [])).len = w + 1 ∧
      ∀ i, start - w ≤ i → i < start → ((List.Ico (start - w) start).foldl
        (fun b i => b.replace i (succ i)) (CircularBuffer.new w [])).index i = succ i := by
    refine foldl_Ico (P := fun j (b : CircularBuffer (List ℕ)) =>
      b.len = w + 1 ∧ ∀ i, start - w ≤ i → i < j → b.index i = succ i) (Nat.sub_le _ _)
      ⟨rfl, fun i h1 h2 => by omega⟩ fun j b h1 h2 hb => ⟨hb.1, fun i hi hij => ?_⟩
    obtain rfl | hlt := (Nat.lt_succ_iff_lt_or_eq.1 hij).symm
    · exact CircularBuffer.index_replace_self
    · rw [CircularBuffer.index_replace_of_lt hlt (by rw [hb.1]; omega)]
      exact hb.2 i hi hlt
  refine ⟨⟨n, w, m, new_decoder start, _, start⟩, ?_,
    ⟨hnear.1, fun i _ hi hw => hnear.2 i (Nat.sub_le_iff_le_add.2 hw) hi⟩, rfl, rfl, rfl, rfl, rfl⟩
  rw [iter_from, hfill]
  rfl

end

end Rbsc.BvGraph
