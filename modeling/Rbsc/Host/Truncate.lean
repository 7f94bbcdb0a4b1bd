import Rbsc.Host.Counts

/-!
# `rbsc_aggressive` is a truncated `rbsc`

The two programs differ in one conjunct of the loop condition.  Whatever that conjunct is, read off
the variables and the number of the round, the rounds are the first rounds of `rbsc`, and a run that
ends with the flag set is the run of `rbsc` (`truncates`).

* `truncated`: the loop of `main` with an arbitrary further conjunct;
* `rbsc_aggressive_eq`: `rbsc_aggressive` is one.
-/

namespace Rbsc.Host

open Arrays DoWhile Gpu

variable {cub : Cub} {sums : SumsOf} {conj : ℕ → State → Bool} {max : ℕ} {g : Graph} {dev : Device}
  {fuel fuel' k : ℕ} {s s' : State}

/-! ## Fuel -/

theorem run_batch_mono {n : ℕ} {edges : List Edge} {b b' : Batches} {batch : ℕ} (hle : fuel ≤ fuel')
    (h : run_batch cub sums max n edges fuel b batch = some b') :
    run_batch cub sums max n edges fuel' b batch = some b' := by
  unfold run_batch at h ⊢
  cases hw : select_window max n edges batch with
  | none =>
    rw [hw] at h
    exact h
  | some win =>
    rw [hw] at h
    obtain ⟨r, hr, rfl⟩ := Option.map_eq_some_iff.1 h
    exact congrArg (Option.map _) (refine_loop_mono hle hr)

theorem run_batches_mono {n : ℕ} {edges : List Edge} (hle : fuel ≤ fuel') :
    ∀ (m : ℕ) {b b' : Batches}, run_batches cub sums max n edges fuel m b = some b' →
      run_batches cub sums max n edges fuel' m b = some b'
  | 0, _, _, h => h
  | m + 1, b, b', h => by
    rw [run_batches_succ] at h ⊢
    obtain ⟨b₁, hb₁, hb'⟩ := Option.bind_eq_some_iff.1 h
    rw [run_batches_mono hle m hb₁]
    exact run_batch_mono hle hb'

/-- A round that returns within some fuel returns the same with more. -/
theorem round_mono (hle : fuel ≤ fuel') (h : round cub sums max fuel s = some s') :
    round cub sums max fuel' s = some s' := by
  obtain ⟨r, hr, rfl⟩ := Option.map_eq_some_iff.1 h
  exact congrArg (Option.map _) (run_batches_mono hle _ hr)

/-- The run, as a run with more fuel. -/
theorem rbsc_mono {extra : ℕ → ℕ → Bool} (hle : fuel ≤ fuel')
    (h : rbsc cub sums extra max g dev fuel = some s) :
    rbsc cub sums extra max g dev fuel' = some s :=
  doWhile_mono_body hle (fun _ _ => round_mono hle) h

/-! ## The truncated loop -/

/-- The loop condition with a further conjunct, on the number of the rounds and the variables. -/
def truncated_again (conj : ℕ → State → Bool) (p : ℕ × State) : Bool :=
  again rbsc_extra p.2 && conj p.1 p.2

/-- The loop of `main` with a further conjunct; it counts its rounds. -/
def truncated (cub : Cub) (sums : SumsOf) (conj : ℕ → State → Bool) (max_batch_edge_n : ℕ)
    (g : Graph) (dev : Device) (fuel : ℕ) : Option (ℕ × State) :=
  doWhile (counted (round cub sums max_batch_edge_n fuel)) (truncated_again conj) fuel
    (0, init g dev)

theorem again_eq (extra : ℕ → ℕ → Bool) (s : State) :
    again extra s = (again rbsc_extra s && extra s.batches s.edges.length) := by
  rw [Bool.eq_iff_iff, Bool.and_eq_true, again_iff, again_iff]
  constructor
  · rintro ⟨hb, he, hlt⟩
    exact ⟨⟨hb, rfl, hlt⟩, he⟩
  · rintro ⟨⟨hb, -, hlt⟩, he⟩
    exact ⟨hb, he, hlt⟩

/-- **`rbsc_aggressive` is a truncated loop.** -/
theorem rbsc_aggressive_eq (cub : Cub) (sums : SumsOf) (max : ℕ) (g : Graph) (dev : Device)
    (fuel : ℕ) :
    rbsc cub sums (aggressive_extra max) max g dev fuel =
      (truncated cub sums (fun _ s => aggressive_extra max s.batches s.edges.length) max g dev
        fuel).map Prod.snd := by
  have hagain : again (aggressive_extra max) =
      fun s => again rbsc_extra s && aggressive_extra max s.batches s.edges.length :=
    funext fun s => again_eq (aggressive_extra max) s
  rw [rbsc, hagain]
  exact doWhile_eq_counted fuel

/-- With one batch the condition fails. -/
theorem again_of_done {extra : ℕ → ℕ → Bool} (h : done s = 1) : again extra s = false := by
  have hb : s.batches = 1 := by
    by_contra hne
    rw [done, if_neg hne] at h
    exact absurd h (by decide)
  rw [← Bool.not_eq_true, again_iff, hb]
  simp

/-- The run of a loop with a further conjunct, beside the run of `rbsc`. -/
structure Truncates (cub : Cub) (sums : SumsOf) (conj : ℕ → State → Bool) (max : ℕ) (g : Graph)
    (dev : Device) (fuel : ℕ) : Prop where
  /-- Every round is entered in the state in which `rbsc` enters it. -/
  rounds : ∀ k p, Entered (counted (round cub sums max fuel)) (truncated_again conj) (0, init g dev)
    k p → AtRound cub sums rbsc_extra max g dev k p.2
  /-- So is the last one, which leaves what the round of `rbsc` leaves. -/
  last : ∀ p, truncated cub sums conj max g dev fuel = some p →
    ∃ k s, p.1 = k + 1 ∧ AtRound cub sums rbsc_extra max g dev k s ∧
      round cub sums max fuel s = some p.2
  /-- The printed count is at least that of `rbsc`. -/
  count : ∀ p, truncated cub sums conj max g dev fuel = some p → ∀ fuel' s',
    rbsc cub sums rbsc_extra max g dev fuel' = some s' → s'.new_node_n ≤ p.2.new_node_n
  /-- With the flag set, `rbsc` ends in the same state. -/
  done : ∀ p, truncated cub sums conj max g dev fuel = some p → done p.2 = 1 →
    rbsc cub sums rbsc_extra max g dev fuel = some p.2

/-- The counts of a run, from any of its rounds to its end. -/
theorem AtRound.le_of_rbsc (hg : Input g) (hn : g.node_n < 2 ^ 32) (hmax : 1 ≤ max)
    (hs : AtRound cub sums rbsc_extra max g dev k s) (hr : round cub sums max fuel s = some s')
    {t : State} (ht : rbsc cub sums rbsc_extra max g dev fuel' = some t) :
    t.new_node_n ≤ s'.new_node_n := by
  obtain ⟨fuel₀, hs⟩ := hs
  -- enough fuel for all three
  set top := fuel₀ + fuel + fuel'
  have hle : ∀ {f}, f ≤ top → ∀ s s', round cub sums max f s = some s' →
      round cub sums max top s = some s' := fun hf _ _ => round_mono hf
  have hs := hs.mono (hle (show fuel₀ ≤ top by omega))
  have hr := hle (show fuel ≤ top by omega) s s' hr
  obtain ⟨j, -, u, hu, ht, ha⟩ := doWhile_eq_some_iff.1 (rbsc_mono (show fuel' ≤ top by omega) ht)
  have hμ : ∀ k s s', Entered (round cub sums max top) (again rbsc_extra) (init g dev) k s →
      round cub sums max top s = some s' → s'.new_node_n ≤ s.new_node_n := fun k s s' hs hr =>
    ((AtRound.runInv hg hn hmax ⟨top, hs⟩).counted hn hmax hr).le
  cases hagain : again rbsc_extra s' with
  | true =>
    have hnext := Entered.next hs hr hagain
    calc t.new_node_n ≤ u.new_node_n := hμ j u t hu ht
      _ ≤ s'.new_node_n := Entered.antitone hμ hnext hu (hu.le_last ht ha hnext)
  | false =>
    -- it is the last round of `rbsc`
    have hjk : j = k := le_antisymm (hs.le_last hr hagain hu) (hu.le_last ht ha hs)
    subst hjk
    cases hu.unique hs
    cases ht.symm.trans hr
    exact le_rfl

theorem truncates (conj : ℕ → State → Bool) (hg : Input g) (hn : g.node_n < 2 ^ 32)
    (hmax : 1 ≤ max) : Truncates cub sums conj max g dev fuel := by
  have hlast : ∀ p, truncated cub sums conj max g dev fuel = some p →
      ∃ k < fuel, p.1 = k + 1 ∧ ∃ s,
        Entered (round cub sums max fuel) (again rbsc_extra) (init g dev) k s ∧
          round cub sums max fuel s = some p.2 := fun p hp => doWhile_counted hp
  refine ⟨fun k p hp => ⟨fuel, hp.of_counted.2⟩, fun p hp => ?_, fun p hp fuel' s' hs' => ?_,
    fun p hp hd => ?_⟩
  · obtain ⟨k, -, hk, s, hs, hr⟩ := hlast p hp
    exact ⟨k, s, hk, ⟨fuel, hs⟩, hr⟩
  · obtain ⟨k, -, -, s, hs, hr⟩ := hlast p hp
    exact AtRound.le_of_rbsc hg hn hmax ⟨fuel, hs⟩ hr hs'
  · obtain ⟨k, hk, -, s, hs, hr⟩ := hlast p hp
    exact doWhile_eq_some_iff.2 ⟨k, hk, s, hs, hr, again_of_done hd⟩

/-- **`rbsc_aggressive` is a truncated `rbsc`**: it is a loop with a further conjunct, and whatever
such a conjunct is, the run is the beginning of the run of `rbsc`. -/
theorem aggressive_truncates (cub : Cub) (sums : SumsOf) (max : ℕ) (g : Graph) (dev : Device)
    (fuel : ℕ) (hg : Input g) (hn : g.node_n < 2 ^ 32) (hmax : 1 ≤ max) :
    rbsc cub sums (aggressive_extra max) max g dev fuel =
        (truncated cub sums (fun _ s => aggressive_extra max s.batches s.edges.length) max g dev
          fuel).map Prod.snd ∧
      ∀ conj, Truncates cub sums conj max g dev fuel :=
  ⟨rbsc_aggressive_eq cub sums max g dev fuel, fun conj => truncates conj hg hn hmax⟩

/-- On `ladderGraph` the number of batches stays the same, and the run stops where `rbsc` goes on. -/
theorem aggressive_truncates_ladderGraph :
    (∃ s, rbsc Cub.reference (device_sums Cub.reference) (aggressive_extra 2) 2 ladderGraph
        zeroDevice 4 = some s ∧ done s = 0 ∧ again rbsc_extra s = true) ∧
      rbsc Cub.reference (device_sums Cub.reference) (aggressive_extra 2) 2 ladderGraph zeroDevice
          4 = (truncated Cub.reference (device_sums Cub.reference)
            (fun _ s => aggressive_extra 2 s.batches s.edges.length) 2 ladderGraph zeroDevice
            4).map Prod.snd ∧
      ∀ conj, Truncates Cub.reference (device_sums Cub.reference) conj 2 ladderGraph zeroDevice
        4 := by
  have hsome : (rbsc Cub.reference (device_sums Cub.reference) (aggressive_extra 2) 2 ladderGraph
      zeroDevice 4).map (fun s => (done s, again rbsc_extra s)) = some (0, true) := by
    decide +kernel
  obtain ⟨s, hs, hcut⟩ := Option.map_eq_some_iff.1 hsome
  obtain ⟨hdone, hagain⟩ := Prod.mk.inj hcut
  exact ⟨⟨s, hs, hdone, hagain⟩, aggressive_truncates Cub.reference (device_sums Cub.reference) 2
    ladderGraph zeroDevice 4 ladderGraph_input (by decide) (by decide)⟩

end Rbsc.Host
