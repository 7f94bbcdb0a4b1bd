import Rbsc.PartRef.Ends

/-!
# `part_ref` with several initial blocks

What the main loop leaves behind on any accepted input without labelled transitions: the blocks are
the classes of the coarsest partition below the initial one that is stable for the weights
(`main_loop_final`), so their number is printed (`minimize_coarsest`).  The segments of the final
blocks lie in those of the initial ones (`Within`), which the output functions rely on.
-/

namespace Rbsc.PartRef

open Arrays Lumping RefinablePartition

variable {n : ℕ} {i : Input} {m : MDP}

/-! ## Places of the sets -/

namespace RefinablePartition

variable {B₀ B B' : RefinablePartition} {P D : Set ℕ} {R : ℕ → ℕ → Prop} {b : ℕ}

/-- The sets of `B'` are parts of those of `B`, and so are their segments. -/
structure Within (n : ℕ) (B B' : RefinablePartition) : Prop where
  refines : ∀ u v, Num n u → Num n v → B'.sets u = B'.sets v → B.sets u = B.sets v
  place : ∀ u, Num n u → B.begins (B.sets u) ≤ B'.locs u ∧ B'.locs u < B.ends (B.sets u)

theorem Within.refl (h : Ok n B) : Within n B B := ⟨fun _ _ _ _ h => h, fun _ hu => h.loc_mem hu⟩

theorem Within.trans (h₁ : Within n B₀ B) (h₂ : Within n B B') (hok : Ok n B) : Within n B₀ B' := by
  refine ⟨fun u v hu hv huv => h₁.refines u v hu hv (h₂.refines u v hu hv huv), fun u hu => ?_⟩
  obtain ⟨hlo, hhi⟩ := h₂.place u hu
  have hset := hok.set u hu
  -- the element that was at the place of `u`
  have hlc := hok.place hset hlo hhi
  have hv := hok.elem _ hlc
  have hsame := h₁.refines _ u hv hu (hok.sets_elems hset hlo hhi)
  have hplace := h₁.place _ hv
  rwa [hok.locs_elems _ hlc, hsame] at hplace

/-- Elements that change places within the sets. -/
theorem Within.of_eq (h' : Ok n B') (hsets : B'.sets = B.sets) (hbegins : B'.begins = B.begins)
    (hends : B'.ends = B.ends) : Within n B B' := by
  refine ⟨fun u v _ _ huv => hsets ▸ huv, fun u hu => ?_⟩
  rw [← hsets, ← hbegins, ← hends]
  exact h'.loc_mem hu

/-- When one set is divided the others keep their places, so its parts stay in its segment. -/
theorem Divides.within (h : Divides n {b} D B B' R) (hok : Ok n B) : Within n B B' := by
  refine ⟨fun u v hu hv huv => ((h.together u v hu hv).1 huv).1, fun u hu => ?_⟩
  have hlc := h.ok.loc u hu
  have hv := hok.elem _ hlc
  have hloc := hok.locs_elems _ hlc
  by_cases hub : B.sets u = b
  · have hvb : B.sets (B.elems (B'.locs u)) = b := by
      by_contra hvb
      obtain ⟨-, hkept⟩ := h.kept _ hv hvb
      rw [hloc] at hkept
      have huv := h.ok.locs_inj hu hv hkept.symm
      rw [← huv] at hvb
      exact hvb hub
    have hmem := hok.loc_mem hv
    rwa [hloc, hvb, ← hub] at hmem
  · obtain ⟨-, hkept⟩ := h.kept u hu hub
    rw [hkept]
    exact hok.loc_mem hu

/-- The segment of a part. -/
theorem Within.segment (h : Within n B B') (h' : Ok n B') {u : ℕ} (hu : Num n u) :
    B.begins (B.sets u) ≤ B'.begins (B'.sets u) ∧ B'.ends (B'.sets u) ≤ B.ends (B.sets u) := by
  have hset := h'.set u hu
  obtain ⟨hpos, hlt, hle⟩ := h'.segment _ hset
  have hin : ∀ lc, B'.begins (B'.sets u) ≤ lc → lc < B'.ends (B'.sets u) →
      B.begins (B.sets u) ≤ lc ∧ lc < B.ends (B.sets u) := by
    intro lc hlo hhi
    have hlc := h'.place hset hlo hhi
    have hv := h'.elem lc hlc
    have hsame := h.refines _ u hv hu (h'.sets_elems hset hlo hhi)
    have hplace := h.place _ hv
    rwa [h'.locs_elems lc hlc, hsame] at hplace
  have hfirst := hin _ le_rfl hlt
  have hlast := hin (B'.ends (B'.sets u) - 1) (by omega) (by omega)
  exact ⟨hfirst.1, by omega⟩

end RefinablePartition

/-! ## One splitter -/

theorem touch_begins (p : RefinablePartition × List ℕ) (el : ℕ) :
    (touch p el).1.begins = p.1.begins ∧ (touch p el).1.ends = p.1.ends := ⟨rfl, rfl⟩

theorem mark_touched_begins (ww : Arr ℤ) (l : List ℕ) (B : RefinablePartition) :
    (mark_touched ww l B).1.begins = B.begins ∧ (mark_touched ww l B).1.ends = B.ends := by
  refine List.foldlRecOn (motive := fun (p : RefinablePartition × List ℕ) =>
      p.1.begins = B.begins ∧ p.1.ends = B.ends) l _
    ⟨rfl, rfl⟩ fun p hp st _ => ?_
  split_ifs
  · obtain ⟨hb, he⟩ := touch_begins p st
    rw [hb, he]
    exact hp
  · exact hp

/-- The touched blocks are divided in their places. -/
theorem split_all_within {B : RefinablePartition} (h : Ok n B) (ww : Arr ℤ) {l : List ℕ}
    (hl : l.Nodup) (hnum : ∀ c ∈ l, Num B.nr_sets c ∧ ¬ Clean B c) :
    Within n B (l.foldl (split_touched ww) B) := by
  induction l using List.reverseRecOn with
  | nil => exact Within.refl h
  | append_singleton l b ih =>
    rw [List.foldl_append, List.foldl_cons, List.foldl_nil]
    have hnum' : ∀ c ∈ l, Num B.nr_sets c ∧ ¬ Clean B c := fun c hc =>
      hnum c (List.mem_append_left _ hc)
    have ih := ih hl.of_append_left hnum'
    have hdiv := split_all_divides h ww hl.of_append_left hnum'
    generalize l.foldl (split_touched ww) B = B' at ih hdiv
    obtain ⟨hb, hdirty⟩ := hnum b (by simp)
    have hbl : b ∉ {c | c ∈ l} := fun hbl =>
      (List.nodup_append.1 hl).2.2 b hbl b (List.mem_singleton_self b) rfl
    obtain ⟨hbegin, -, hmid⟩ := hdiv.frame b hb hbl
    have hlo : B'.begins b < B'.mids b := by
      have := (h.mid b hb).1
      unfold Clean at hdirty
      omega
    have hone := split_touched_divides hdiv.ok ⟨hb.1, hb.2.trans hdiv.nr_le⟩ hlo ww
    exact ih.trans (hone.within hdiv.ok) hdiv.ok

/-- **One splitter** leaves the parts of a block in its places. -/
theorem markov_step_within {s : State} (hi : InputOk n i) (hfit : SumsFit i.m) (h : Ready n s)
    (hb : Num s.B.nr_sets s.markov_splitter) : Within n s.B (markov_step i s).B := by
  have hscan := scan_splitter_spec h.ok hi hfit hb h.unused
  unfold markov_step
  dsimp only
  generalize scan_splitter i s.B s.markov_splitter s.ww = p at hscan
  have hnum : ∀ u ∈ p.2, Num n u := by
    intro u hu
    obtain ⟨tr, htr, rfl⟩ := (hscan.touched u).1 hu
    exact hi.tails tr ((mem_inTransitions h.ok hi hb).1 htr).1
  have htouch := mark_touched_spec h.ok h.clean p.1 hscan.nodup hnum
  obtain ⟨hbegins, hends⟩ := mark_touched_begins p.1 p.2 s.B
  generalize mark_touched p.1 p.2 s.B = q at htouch hbegins hends
  have hmarks : Within n s.B q.1 := Within.of_eq htouch.ok htouch.sets hbegins hends
  refine hmarks.trans (split_all_within htouch.ok p.1 (List.nodup_reverse.2 htouch.nodup)
    fun c hc => ?_) htouch.ok
  rw [htouch.nr_sets, ← htouch.stack c]
  exact List.mem_reverse.1 hc

/-! ## The main loop -/

/-- The partition of the states by the initial blocks. -/
def MDP.initialBlocks (m : MDP) : Setoid (Fin m.nr_states) :=
  Setoid.ker fun u : Fin m.nr_states => m.sets ((u : ℕ) + 1)

/-- The invariant of the loop of `markov_split`, for any initial blocks. -/
structure Refining (m : MDP) (s : State) : Prop where
  ready : Ready m.nr_states s
  pos : 1 ≤ s.markov_splitter
  pending : Splitter.Pending (m.W m.nr_states) (blockOf m.nr_states s.B) s.markov_splitter
  coarsest_le : coarsest (m.W m.nr_states) m.initialBlocks ≤
    Setoid.ker (blockOf m.nr_states s.B)
  within : Within m.nr_states (initial m).B s.B

variable {s : State}

theorem Refining.next (hm : Accepted m) (hfit : SumsFit m) (h : Refining m s)
    (hle : s.markov_splitter ≤ s.B.nr_sets) : Refining m (markov_step (input m) s) := by
  have hi := input_ok hm.w_ends
  have hb : Num s.B.nr_sets s.markov_splitter := ⟨h.pos, hle⟩
  have hround := markov_step_round hi hfit (fun t ht => (hm.w_ends t ht).2) h.ready hb
  exact ⟨(markov_step_divides hi hfit h.ready hb).1, Nat.le_succ_of_le h.pos,
    Splitter.Pending.next hround hle h.pending, hround.coarsest_le h.coarsest_le,
    h.within.trans (markov_step_within hi hfit h.ready hb) h.ready.ok⟩

theorem Refining.start (hm : Accepted m) (hlt : m.nr_states < 2 ^ 31) (h : ReachesLoop m) :
    Refining m (initial m) := by
  have hn : 1 ≤ m.nr_states := Nat.one_le_iff_ne_zero.2 h.1
  obtain ⟨hok, hclean⟩ := split_according_initial_partition_ok hn hlt hm.sets h.2
  have hok : Ok m.nr_states (initial m).B := hok
  refine ⟨⟨hok, fun c hc => hclean c (h.2 ▸ hc), fun u hu => initial_unused hu⟩, le_rfl, ?_,
    Lumping.coarsest_le _ _, Within.refl hok⟩
  exact Splitter.pending_one fun u => (hok.set _ (num_state u)).1

/-- What the main loop leaves behind. -/
structure Final (m : MDP) (B : RefinablePartition) : Prop where
  ok : Ok m.nr_states B
  coarsest : Setoid.ker (blockOf m.nr_states B) = coarsest (m.W m.nr_states) m.initialBlocks
  within : Within m.nr_states (initial m).B B

/-- With no splitter pending the blocks are final. -/
theorem Refining.final (h : Refining m s) (hend : s.B.nr_sets < s.markov_splitter) :
    Final m s.B := by
  have hblocks : ∀ u, blockOf m.nr_states s.B u < s.markov_splitter := fun u =>
    (h.ready.ok.set _ (num_state u)).2.trans_lt hend
  have hbelow : Setoid.ker (blockOf m.nr_states s.B) ≤ m.initialBlocks := fun u v huv =>
    h.within.refines _ _ (num_state u) (num_state v) huv
  exact ⟨h.ready.ok, coarsest_eq hbelow (h.pending.stable hblocks) h.coarsest_le, h.within⟩

/-- **The main loop** of an accepted input without labelled transitions, for any initial blocks. -/
theorem main_loop_final (hm : Accepted m) (hl : m.l_trans = []) (hfit : Fits m)
    (h : ReachesLoop m) {fuel : ℕ} (hfuel : m.nr_states ≤ fuel) :
    ∃ s, main_loop (input m) fuel (initial m) = some s ∧ Final m s.B := by
  have hn : 1 ≤ m.nr_states := Nat.one_le_iff_ne_zero.2 h.1
  obtain ⟨s, t, hs, hB, ht, hend⟩ := main_loop_returns (fun _ ht => ht.ready)
    (fun t ht hle => Refining.next hm hfit.sums ht hle) (fun st hst => no_in_l hl hst)
    (Refining.start hm hfit.states h) le_rfl (show 1 ≤ 2 by decide) (no_cords hl ▸ Nat.one_pos) hn
    hfuel
  exact ⟨s, hs, hB ▸ ht.final hend⟩

theorem Final.nr_sets_eq {B : RefinablePartition} (h : Final m B) :
    B.nr_sets = classCount (Lumping.coarsest (m.W m.nr_states) m.initialBlocks) := by
  rw [← h.coarsest, classCount_blockOf h.ok]

/-- **The number that is printed.** -/
theorem Accepted.minimize_eq (hm : Accepted m) (hl : m.l_trans = []) (hfit : Fits m)
    (h : ReachesLoop m) {fuel : ℕ} (hfuel : m.nr_states ≤ fuel) :
    minimize m fuel =
      some (classCount (Lumping.coarsest (m.W m.nr_states) m.initialBlocks)) := by
  obtain ⟨s, hs, hf⟩ := main_loop_final hm hl hfit h hfuel
  rw [minimize, if_neg h.1, if_neg (not_not.2 h.2), hs, Option.map_some, hf.nr_sets_eq]

/-- Every initial block has a state, and there are states. -/
theorem reachesLoop_iff (hm : Accepted m) (hlt : m.nr_states < 2 ^ 31) :
    ReachesLoop m ↔ m.nr_states ≠ 0 ∧
      ∀ bl, Num m.nr_init_blocks bl → ∃ st, Num m.nr_states st ∧ m.sets st = bl :=
  and_congr_right fun hn => nr_sets_eq_iff (Nat.one_le_iff_ne_zero.2 hn) hlt hm.sets

section

variable {σ : Type} {rd : Reader σ} {k : ℕ} {x : σ}

/-- **Exactness for any initial blocks.**  On an accepted input without labelled transitions
`part_ref` prints the number of classes of the coarsest stable partition below the initial one,
unless there are no states or some initial block is empty: then it prints nothing. -/
theorem minimize_coarsest (h : MDP_read rd k x = some m) (hl : m.l_trans = []) (hfit : Fits m)
    {fuel : ℕ} (hfuel : m.nr_states ≤ fuel) :
    ((m.nr_states ≠ 0 ∧ ∀ bl, Num m.nr_init_blocks bl →
      ∃ st, Num m.nr_states st ∧ m.sets st = bl) → minimize m fuel =
        some (classCount (Lumping.coarsest (m.W m.nr_states) m.initialBlocks))) ∧
    (¬ (m.nr_states ≠ 0 ∧ ∀ bl, Num m.nr_init_blocks bl →
      ∃ st, Num m.nr_states st ∧ m.sets st = bl) → minimize m fuel = none) := by
  have hm := MDP_read_accepted h
  rw [← reachesLoop_iff hm hfit.states]
  refine ⟨fun hr => hm.minimize_eq hl hfit hr hfuel, fun hr => ?_⟩
  unfold ReachesLoop at hr
  rw [minimize]
  by_cases hn : m.nr_states = 0
  · rw [if_pos hn]
  · rw [if_neg hn, if_pos fun heq => hr ⟨hn, heq⟩]

/-- Three states, two of which have the same weight into the third, in two initial blocks. -/
def fork : MDP where
  nr_states := 3
  nr_labels := 0
  nr_init_blocks := 2
  l_trans := []
  w_trans := [⟨1, 5, 3⟩, ⟨2, 5, 3⟩]
  sets := ((List.Ico 1 4).foldl (fun (sets : Arr ℕ) st => sets.set st 1) (.const 0)).set 3 2

theorem fork_read : MDP_read numbers 2 [3, 0, 0, 2, 2, 1, 5, 3, 2, 5, 3, 3, 0] = some fork := rfl

theorem fork_fits : Fits fork := ⟨by decide, sumsFit_of_total (by decide)⟩

theorem minimize_coarsest_fork : Fits fork ∧ minimize fork 3 =
    some (classCount (Lumping.coarsest (fork.W 3) fork.initialBlocks)) := by
  refine ⟨fork_fits, (minimize_coarsest fork_read rfl fork_fits le_rfl).1
    ⟨by decide, fun bl hbl => ?_⟩⟩
  obtain ⟨h₁, h₂⟩ : 1 ≤ bl ∧ bl ≤ 2 := hbl
  interval_cases bl
  · exact ⟨1, ⟨by decide, by decide⟩, rfl⟩
  · exact ⟨3, ⟨by decide, by decide⟩, rfl⟩

end

end Rbsc.PartRef
