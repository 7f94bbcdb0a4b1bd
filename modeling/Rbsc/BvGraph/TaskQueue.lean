import Rbsc.Lib.Decoding

/-!
# `TaskQueue`

The threads of `parallel_iter` finish in any order, and `TaskQueue` hands their jobs out in the
order of their ids.

* `next_eq`: the next id, if there is a job with it, whatever has arrived so far;
* `task_queue_yields`: the jobs in front of the first id that is missing; those behind it are never
  handed out.
-/

namespace Rbsc.BvGraph

open Decoding

variable {α : Type}

/-- `TaskQueue`; `iter` is what the iterator will still give. -/
structure TaskQueue (α : Type) where
  iter : List α
  jobs : List (Option α)
  next_id : ℕ

/-- `jobs[id] = Some(item)`, after a resize where it takes one. -/
def store (jobs : List (Option α)) (id : ℕ) (item : α) : List (Option α) :=
  (if jobs.length ≤ id then jobs ++ List.replicate (id + 1 - jobs.length) none else jobs).set id
    (some item)

namespace TaskQueue

/-- `TaskQueue::new`. -/
def new (iter : List α) : TaskQueue α := ⟨iter, [], 0⟩

/-- The loop of `next`. -/
def next_loop (id : α → ℕ) (next_id : ℕ) (jobs : List (Option α)) :
    List α → Option α × TaskQueue α
  | [] =>
    match jobs[next_id]? with
    | some (some item) => (some item, ⟨[], jobs.set next_id none, next_id + 1⟩)
    | _ => (none, ⟨[], jobs, next_id⟩)
  | x :: iter =>
    match jobs[next_id]? with
    | some (some item) => (some item, ⟨x :: iter, jobs.set next_id none, next_id + 1⟩)
    | _ => next_loop id next_id (store jobs (id x) x) iter

/-- `next`. -/
def next (id : α → ℕ) (q : TaskQueue α) : Option α × TaskQueue α :=
  next_loop id q.next_id q.jobs q.iter

/-- The queue as an iterator that never fails. -/
def step (id : α → ℕ) (q : TaskQueue α) : Option (Option α × TaskQueue α) := some (q.next id)

/-! ### What is stored -/

/-- The job that is stored under an id. -/
def held (jobs : List (Option α)) (i : ℕ) : Option α := (jobs[i]?).join

theorem held_eq_some {jobs : List (Option α)} {i : ℕ} {x : α} :
    held jobs i = some x ↔ jobs[i]? = some (some x) := by
  rw [held, Option.join_eq_some_iff]

theorem held_store (jobs : List (Option α)) (id j : ℕ) (x : α) :
    held (store jobs id x) j = if id = j then some x else held jobs j := by
  unfold held store
  by_cases hlen : jobs.length ≤ id
  · rw [if_pos hlen, List.getElem?_set]
    by_cases hj : id = j
    · rw [if_pos hj, if_pos hj, if_pos (by simp; omega)]
      rfl
    · rw [if_neg hj, if_neg hj, List.getElem?_append]
      by_cases hlt : j < jobs.length
      · rw [if_pos hlt]
      · rw [if_neg hlt, List.getElem?_eq_none (not_lt.1 hlt), List.getElem?_replicate]
        split <;> rfl
  · rw [if_neg hlen, List.getElem?_set]
    by_cases hj : id = j
    · rw [if_pos hj, if_pos hj, if_pos (not_le.1 hlen)]
      rfl
    · rw [if_neg hj, if_neg hj]

theorem held_set_none {jobs : List (Option α)} {i j : ℕ} (h : i ≠ j) :
    held (jobs.set i none) j = held jobs j := by
  rw [held, held, List.getElem?_set_ne h]

/-! ### A run of the queue -/

/-- The queue, where `item` gives the job of each id: from the next id on, each job is stored or
still to come, and nothing else is. -/
structure Ok (id : α → ℕ) (item : ℕ → Option α) (q : TaskQueue α) : Prop where
  iter : ∀ x ∈ q.iter, item (id x) = some x
  held : ∀ j, q.next_id ≤ j → ∀ x, held q.jobs j = some x → item j = some x
  all : ∀ j, q.next_id ≤ j → ∀ x, item j = some x → TaskQueue.held q.jobs j = some x ∨ x ∈ q.iter

variable {id : α → ℕ} {item : ℕ → Option α} (hid : ∀ i x, item i = some x → id x = i)
include hid

theorem Ok.store {next_id : ℕ} {jobs : List (Option α)} {x : α} {iter : List α}
    (h : Ok id item ⟨x :: iter, jobs, next_id⟩) :
    Ok id item ⟨iter, BvGraph.store jobs (id x) x, next_id⟩ where
  iter y hy := h.iter y (List.mem_cons_of_mem _ hy)
  held j hj y hy := by
    change TaskQueue.held (BvGraph.store jobs (id x) x) j = some y at hy
    rw [held_store] at hy
    by_cases hx : id x = j
    · rw [if_pos hx] at hy
      cases hy
      exact hx ▸ h.iter x (List.mem_cons_self ..)
    · rw [if_neg hx] at hy
      exact h.held j hj y hy
  all j hj y hy := by
    change TaskQueue.held (BvGraph.store jobs (id x) x) j = some y ∨ y ∈ iter
    rw [held_store]
    by_cases hx : id x = j
    · have hxj := h.iter x (List.mem_cons_self ..)
      rw [hx, hy] at hxj
      exact Or.inl (by rw [if_pos hx, ← hxj])
    · rw [if_neg hx]
      obtain hheld | hmem := h.all j hj y hy
      · exact Or.inl hheld
      · obtain rfl | hmem := List.mem_cons.1 hmem
        · exact absurd (hid j y hy) hx
        · exact Or.inr hmem

/-- **One call.**  The queue waits for the next id, and ends if it is missing. -/
theorem next_eq {q : TaskQueue α} (h : Ok id item q) :
    ∃ q', q.next id = (item q.next_id, q') ∧
      ((item q.next_id).isSome → Ok id item q' ∧ q'.next_id = q.next_id + 1) := by
  obtain ⟨iter, jobs, next_id⟩ := q
  -- the job is stored, whatever is left of the iterator
  have hstored : ∀ x iter jobs, Ok id item ⟨iter, jobs, next_id⟩ →
      jobs[next_id]? = some (some x) → item next_id = some x ∧
        Ok id item ⟨iter, jobs.set next_id none, next_id + 1⟩ := by
    intro x iter jobs h hx
    refine ⟨h.held next_id le_rfl x (held_eq_some.2 hx), h.iter, fun j hj y hy => ?_,
      fun j hj y hy => ?_⟩
    · change next_id + 1 ≤ j at hj
      change TaskQueue.held (jobs.set next_id none) j = some y at hy
      rw [held_set_none (by omega)] at hy
      exact h.held j (show next_id ≤ j by omega) y hy
    · change next_id + 1 ≤ j at hj
      change TaskQueue.held (jobs.set next_id none) j = some y ∨ y ∈ iter
      rw [held_set_none (by omega)]
      exact h.all j (show next_id ≤ j by omega) y hy
  change ∃ q', next_loop id next_id jobs iter = (item next_id, q') ∧
    ((item next_id).isSome → Ok id item q' ∧ q'.next_id = next_id + 1)
  induction iter generalizing jobs with
  | nil =>
    rw [next_loop]
    split
    · next x hx =>
      obtain ⟨hitem, hok⟩ := hstored x [] jobs h hx
      exact ⟨_, by rw [hitem], fun _ => ⟨hok, rfl⟩⟩
    · next hnone =>
      have hitem : item next_id = none := by
        cases hitem : item next_id with
        | none => rfl
        | some x =>
          obtain hheld | hmem := h.all next_id le_rfl x hitem
          · exact absurd (held_eq_some.1 hheld) (hnone x)
          · exact absurd hmem List.not_mem_nil
      exact ⟨_, by rw [hitem], by simp [hitem]⟩
  | cons x iter ih =>
    rw [next_loop]
    split
    · next y hy =>
      obtain ⟨hitem, hok⟩ := hstored y (x :: iter) jobs h hy
      exact ⟨_, by rw [hitem], fun _ => ⟨hok, rfl⟩⟩
    · exact ih _ (h.store hid)

/-- The jobs from the next id on, up to the first that is missing. -/
theorem yields_of_ok {js : List α} {q : TaskQueue α} (h : Ok id item q)
    (hjs : ∀ i (hi : i < js.length), item (q.next_id + i) = some js[i])
    (hmiss : item (q.next_id + js.length) = none) : Yields (step id) js q := by
  induction js generalizing q with
  | nil =>
    obtain ⟨q', hq, -⟩ := next_eq hid h
    rw [List.length_nil, Nat.add_zero] at hmiss
    have hstep : step id q = some (none, q') := by rw [step, hq, hmiss]
    exact .nil hstep
  | cons x js ih =>
    obtain ⟨q', hq, hok⟩ := next_eq hid h
    have hx : item q.next_id = some x := hjs 0 (Nat.succ_pos _)
    obtain ⟨hok, hnext⟩ := hok (by rw [hx]; rfl)
    have hstep : step id q = some (some x, q') := by rw [step, hq, hx]
    refine .cons hstep (ih hok (fun i hi => ?_) ?_)
    · rw [hnext, Nat.add_right_comm]
      exact hjs (i + 1) (Nat.succ_lt_succ hi)
    · rw [hnext, Nat.add_right_comm]
      exact hmiss

/-- The queue over jobs that arrive in any order. -/
theorem yields_new {arrivals js : List α} (harr : ∀ x, x ∈ arrivals ↔ item (id x) = some x)
    (hjs : ∀ i (hi : i < js.length), item i = some js[i]) (hmiss : item js.length = none) :
    Yields (step id) js (new arrivals) := by
  have hok : Ok id item (new arrivals) := by
    refine ⟨fun x hx => (harr x).1 hx, fun j _ x hx => ?_,
      fun j _ x hx => Or.inr ((harr x).2 (by rwa [hid j x hx]))⟩
    cases hx
  refine yields_of_ok hid hok (fun i hi => ?_) ?_
  · rw [new, Nat.zero_add]
    exact hjs i hi
  · rwa [new, Nat.zero_add]

/-- There are at least as many jobs as ids in a row without a gap. -/
theorem le_length {arrivals : List α} (harr : ∀ x, item (id x) = some x → x ∈ arrivals) {n : ℕ}
    (h : ∀ i < n, ∃ x, item i = some x) : n ≤ arrivals.length := by
  have hsub : List.range n ⊆ arrivals.map id := fun i hi => by
    obtain ⟨x, hx⟩ := h i (List.mem_range.1 hi)
    obtain rfl := hid i x hx
    exact List.mem_map_of_mem (harr x hx)
  simpa using (List.nodup_range.subperm hsub).length_le

end TaskQueue

open TaskQueue

/-- **The order of the queue.**  Whatever the order in which jobs with different ids arrive, the
queue hands out those with the ids `0, 1, …` up to the first id that none has. -/
theorem task_queue_yields (id : α → ℕ) {arrivals : List α} (h : (arrivals.map id).Nodup) :
    ∃ js : List α, Yields (step id) js (new arrivals) ∧ js.map id = List.range js.length ∧
      js ⊆ arrivals ∧ ∀ x ∈ arrivals, id x ≠ js.length := by
  classical
  have hinj : ∀ x ∈ arrivals, ∀ y ∈ arrivals, id x = id y → x = y := fun x hx y hy hxy =>
    List.inj_on_of_nodup_map h hx hy hxy
  let item : ℕ → Option α := fun i => arrivals.find? fun x => id x = i
  have hid : ∀ i x, item i = some x → id x = i := fun i x hx => by
    simpa using List.find?_some hx
  have harr : ∀ x, x ∈ arrivals ↔ item (id x) = some x := by
    refine fun x => ⟨fun hx => ?_, fun hx => List.mem_of_find?_eq_some hx⟩
    obtain ⟨y, hy⟩ : ∃ y, item (id x) = some y := by
      rw [← Option.isSome_iff_exists, List.find?_isSome]
      exact ⟨x, hx, by simp⟩
    rw [hy, hinj y (List.mem_of_find?_eq_some hy) x hx (hid _ y hy)]
  -- some id below the number of jobs plus one is missing
  have hmiss : ∃ i, item i = none := by
    by_contra hall
    have hle := le_length hid (fun x hx => (harr x).2 hx) (n := arrivals.length + 1)
      fun i _ => Option.ne_none_iff_exists'.1 (not_exists.1 hall i)
    omega
  have hsome : ∀ i (hi : i < Nat.find hmiss), ∃ x, item i = some x := fun i hi =>
    Option.ne_none_iff_exists'.1 (Nat.find_min hmiss hi)
  let js := List.ofFn fun i : Fin (Nat.find hmiss) => (hsome i i.2).choose
  have hlen : js.length = Nat.find hmiss := List.length_ofFn
  have hjs : ∀ i (hi : i < js.length), item i = some js[i] := fun i hi => by
    rw [List.getElem_ofFn]
    exact (hsome i (hlen ▸ hi)).choose_spec
  refine ⟨js, yields_new hid harr hjs (hlen ▸ Nat.find_spec hmiss), ?_, fun x hx => ?_,
    fun x hx hxl => ?_⟩
  · refine List.ext_getElem (by simp) fun i h1 h2 => ?_
    rw [List.getElem_map, List.getElem_range]
    exact hid i _ (hjs i (by simpa using h1))
  · obtain ⟨i, hi, rfl⟩ := List.getElem_of_mem hx
    exact List.mem_of_find?_eq_some (hjs i hi)
  · have := (harr x).1 hx
    rw [hxl, hlen, Nat.find_spec hmiss] at this
    cases this

-- Job `3` never comes, so job `4` is not handed out.
example : collect (step id) 9 (new [2, 0, 4, 1]) = some [0, 1, 2] := by decide

theorem task_queue_yields_gap : ∃ js : List ℕ, Yields (step id) js (new [2, 0, 4, 1]) ∧
    js.map id = List.range js.length ∧ js ⊆ [2, 0, 4, 1] ∧
    ∀ x ∈ [2, 0, 4, 1], id x ≠ js.length :=
  task_queue_yields id (by decide)

end Rbsc.BvGraph
