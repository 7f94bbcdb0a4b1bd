import Rbsc.Host.Exact
import Rbsc.Host.Counts

/-!
# Windows of out-degree one

With at most one edge a node and weights `1`, the sum of a source is the mixed label of its target.
`randomize` is injective and the quotients are graphs of the same kind, so no pass of a run has a
collision (`collisionFreeRun_of_outDegree`).
-/

namespace Rbsc

open Arrays Lumping

/-- Every node has at most one edge, and all weights are `1`. -/
structure UnitOutDegree (edges : List Edge) : Prop where
  one : (edges.map Edge.edge_start).Nodup
  unit : ∀ e ∈ edges, e.edge_weight = 1

section Graph

variable {edges l acc : List Edge} {n : ℕ} {e f : Edge}

theorem UnitOutDegree.sublist (h : UnitOutDegree edges) (hl : l.Sublist edges) :
    UnitOutDegree l :=
  ⟨h.one.sublist (hl.map _), fun e he => h.unit e (hl.subset he)⟩

theorem UnitOutDegree.grouped (h : UnitOutDegree edges) : Grouped edges := by
  intro k hk j hj i hi hik
  have hstart : ∀ m, m < edges.length → startAt edges m =
      (edges.map Edge.edge_start).getD m 0 := fun m hm => by
    rw [startAt_eq hm, List.getD_eq_getElem _ _ (by simpa using hm), List.getElem_map]
  rw [hstart i (by omega), hstart k hk, List.getD_eq_getElem _ _ (by simp; omega),
    List.getD_eq_getElem _ _ (by simpa using hk), h.one.getElem_inj_iff] at hik
  omega

/-- There are no more edges than nodes. -/
theorem UnitOutDegree.length_le (h : UnitOutDegree edges) (hids : IdsBelow n edges) :
    edges.length ≤ n := by
  have hsub : edges.map Edge.edge_start ⊆ List.range n := fun u hu => by
    obtain ⟨e, he, rfl⟩ := List.mem_map.1 hu
    exact List.mem_range.2 (hids e he).1
  have hle := (List.subperm_of_subset h.one hsub).length_le
  rwa [List.length_map, List.length_range] at hle

theorem UnitOutDegree.total (h : UnitOutDegree edges) : totalWeight edges = edges.length := by
  have hmap : edges.map Edge.edge_weight = List.replicate edges.length 1 :=
    List.eq_replicate_iff.2 ⟨by simp, fun x hx => by
      obtain ⟨e, he, rfl⟩ := List.mem_map.1 hx
      exact h.unit e he⟩
  rw [totalWeight, hmap, List.sum_replicate, smul_eq_mul, Nat.mul_one]

/-- A node has its edge only. -/
theorem UnitOutDegree.filter_start (h : UnitOutDegree edges) (he : e ∈ edges) :
    (edges.filter fun e' => e'.edge_start = e.edge_start) = [e] := by
  have hinj := List.inj_on_of_nodup_map h.one
  have hnd : (edges.filter fun e' => e'.edge_start = e.edge_start).Nodup :=
    (List.Nodup.of_map _ h.one).filter _
  refine List.perm_singleton.1 ((List.perm_ext_iff_of_nodup hnd (List.nodup_singleton e)).2
    fun e' => ?_)
  rw [List.mem_filter, decide_eq_true_eq, List.mem_singleton]
  constructor
  · rintro ⟨he', hs⟩
    exact hinj he' he hs
  · rintro rfl
    exact ⟨he, rfl⟩

/-- The sum of a source is the value of its target. -/
theorem UnitOutDegree.hashSum_eq (h : UnitOutDegree edges) (he : e ∈ edges) (f : ℕ → Word) :
    hashSum edges f e.edge_start = f e.edge_end := by
  rw [hashSum, h.filter_start he, List.map_singleton, List.sum_singleton, h.unit e he]
  exact mul_one _

theorem UnitOutDegree.edgeWeight_eq (h : UnitOutDegree edges) (he : e ∈ edges) (y : ℕ) :
    edgeWeight edges e.edge_start y = if e.edge_end = y then 1 else 0 := by
  have hfilter : (edges.filter fun e' => e'.edge_start = e.edge_start ∧ e'.edge_end = y) =
      [e].filter fun e' => e'.edge_end = y := by
    rw [← h.filter_start he, List.filter_filter]
    refine List.filter_congr fun e' _ => ?_
    rw [Bool.decide_and, Bool.and_comm]
  rw [edgeWeight, hfilter]
  by_cases hy : e.edge_end = y
  · simp [hy, h.unit e he]
  · simp [hy]

/-- **Sources with equivalent targets** have the same weights. -/
theorem UnitOutDegree.sameWeights (h : UnitOutDegree edges) {r : Setoid (Fin n)}
    (he : e ∈ edges) (hf : f ∈ edges) {u v x y : Fin n} (hu : e.edge_start = u)
    (hx : e.edge_end = x) (hv : f.edge_start = v) (hy : f.edge_end = y) (hxy : r x y) :
    SameWeights (weights edges n) r u v := by
  classical
  have hrow : ∀ {e : Edge}, e ∈ edges → ∀ {u x : Fin n}, e.edge_start = u → e.edge_end = x →
      ∀ c, classWeight (weights edges n) r u c = if r c x then 1 else 0 := by
    intro e he u x hu hx c
    have hw : ∀ z, weights edges n u z = if x = z then 1 else 0 := fun z => by
      rw [weights, ← hu, h.edgeWeight_eq he, hx]
      exact if_congr Fin.val_inj rfl rfl
    simp only [classWeight, hw, Finset.sum_ite_eq, Finset.mem_filter, Finset.mem_univ, true_and]
  intro c
  rw [hrow he hu hx, hrow hf hv hy]
  exact if_congr ⟨fun hc => r.trans hc hxy, fun hc => r.trans hc (r.symm hxy)⟩ rfl rfl

/-- Edges of different sources are not merged. -/
theorem foldl_addEdge_of_nodup (h : ((acc ++ l).map Edge.edge_start).Nodup) :
    l.foldl addEdge acc = acc ++ l := by
  induction l generalizing acc with
  | nil => simp
  | cons e l ih =>
    have hno : ∀ f ∈ acc, ¬ SameEnds f e := fun f hf hs => by
      rw [List.map_append, List.nodup_append] at h
      exact h.2.2 _ (List.mem_map_of_mem hf) _ (List.mem_map_of_mem (List.mem_cons_self ..)) hs.1
    rw [List.foldl_cons, addEdge_of_forall_not hno, ih (by simpa using h), List.append_assoc]
    rfl

/-- **The quotient has out-degree one.** -/
theorem UnitOutDegree.quotient (h : UnitOutDegree edges) (w : ℕ → ℕ) :
    UnitOutDegree (quotientEdges w edges) := by
  have hnd : ((keptEdges w edges edges).map Edge.edge_start).Nodup := by
    have hmap : (keptEdges w edges edges).map Edge.edge_start =
        ((edges.filter fun e => Kept w edges e.edge_start).map Edge.edge_start).map w := by
      rw [keptEdges, List.map_map, List.map_map]
      rfl
    rw [hmap]
    refine List.Nodup.map_on (fun u hu v hv huv => ?_) (h.one.sublist (List.filter_sublist.map _))
    obtain ⟨e, he, rfl⟩ := List.mem_map.1 hu
    obtain ⟨f, hf, rfl⟩ := List.mem_map.1 hv
    exact Kept.inj (of_decide_eq_true (List.mem_filter.1 he).2)
      (of_decide_eq_true (List.mem_filter.1 hf).2) huv
  have hq : quotientEdges w edges = keptEdges w edges edges := foldl_addEdge_of_nodup hnd
  rw [hq]
  refine ⟨hnd, fun f hf => ?_⟩
  obtain ⟨e, he, -, rfl⟩ := mem_keptEdges.1 hf
  exact h.unit e he

end Graph

end Rbsc

namespace Rbsc.Host

open Arrays DoWhile Gpu Labelling Lumping

variable {cub : Cub} {extra : ℕ → ℕ → Bool} {max n k : ℕ} {g : Graph} {dev : Device} {s : State}

/-- **A window without collisions.** -/
theorem windowCollisionFree_of_outDegree {window : List Edge} {batch_mask : Arr Mask} {off : ℕ}
    {d : Device} (hfit : GridFits n) (hok : WindowOk n window batch_mask)
    (hu : UnitOutDegree window) : CollisionFree cub n window batch_mask off d := by
  intro k r _ u v hum hvm huv
  have hsu := (hok.in_batch_iff u u.2).1 hum
  have hsv := (hok.in_batch_iff v v.2).1 hvm
  rw [window_sums_apply cub hfit hok r.it r.dev hsu,
    window_sums_apply cub hfit hok r.it r.dev hsv] at huv
  obtain ⟨e, he, heu⟩ := hsu
  obtain ⟨f, hf, hfv⟩ := hsv
  rw [← heu, ← hfv, hu.hashSum_eq he, hu.hashSum_eq hf] at huv
  exact hu.sameWeights (x := ⟨e.edge_end, (hok.ids e he).2⟩) (y := ⟨f.edge_end, (hok.ids f hf).2⟩)
    he hf heu rfl hfv rfl (randomize_add_injective r.it huv)

/-- **The rounds keep out-degree one.** -/
theorem AtRound.outDegree (hg : Input g) (hn : g.node_n < 2 ^ 32) (hmax : 1 ≤ max)
    (hu : UnitOutDegree g.edges) (hs : AtRound cub (device_sums cub) extra max g dev k s) :
    UnitOutDegree s.edges := by
  obtain ⟨fuel, hs⟩ := hs
  refine hs.inv (I := fun _ s => UnitOutDegree s.edges) hu fun k s s' hs ih hr ha => ?_
  have hcount := (AtRound.runInv hg hn hmax ⟨fuel, hs⟩).counted hn hmax hr
  have hb := (again_iff.1 ha).1
  rw [hcount.batches] at hb
  rw [hcount.edges, if_pos hb]
  exact ih.quotient s'.w

theorem collisionFreeRun_of_outDegree (hg : Input g) (hfit : KernelsFit max g.node_n g.edges)
    (hmax : 1 ≤ max) (hu : UnitOutDegree g.edges) : CollisionFreeRun cub extra max g dev := by
  have hlt := hfit.lt
  intro k s hs fuel j hj b _ win hwin
  obtain ⟨hinv, hfits⟩ := hs.inv_fits hg hfit hmax
  have hspec := windowSpec_of_some hinv.grouped hmax hj hwin
  have hus := hs.outDegree hg (by omega) hmax hu
  exact windowCollisionFree_of_outDegree (hfits.gridFits hmax hwin)
    (hspec.windowOk hinv.grouped hinv.ids)
    (hus.sublist ((List.take_sublist _ _).trans (List.drop_sublist _ _)))

end Rbsc.Host
