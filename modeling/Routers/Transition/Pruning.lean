import Routers.Transition.Matcher
import Routers.Trellis.Pruning

/-!
# Selective weighing

A weigher that weighs only some of the candidates prices them as the exhaustive one does, and
leaves the edges to the others absent.  The trellis it leaves is a pruned one.

## Main definitions

* `Thins` — the same weights, but for some that are absent.

## Main results

* `Weigher.thins_weighBoundary` — a boundary is weighed as exhaustively, but for absent edges.
* `Weigher.prunes_weighedTrellis` — **what a weigher leaves is pruned from the exhaustive one.**
* `selective_refines` — **selective weighing refines exact weighing.**

## References

`src/libs/routers_transition/src/weigh/selective.rs` and
`src/libs/routers_transition/src/weigh/all_compute.rs`.
-/

namespace Routers

/-- The weights of the one list are those of the other, or absent. -/
def Thins (absent : ℕ) : List ℕ → List ℕ → Prop :=
  List.Forall₂ fun weight exact => weight = absent ∨ weight = exact

theorem thins_refl (absent : ℕ) (weights : List ℕ) : Thins absent weights weights :=
  List.forall₂_same.mpr fun _ _ => Or.inr rfl

theorem Thins.getElem? {absent : ℕ} {weights exact : List ℕ} (h : Thins absent weights exact)
    {k weight : ℕ} (hk : weights[k]? = some weight) (hne : weight ≠ absent) :
    exact[k]? = some weight := by
  obtain ⟨hlt, rfl⟩ := List.getElem?_eq_some_iff.mp hk
  obtain ⟨hlen, hget⟩ := List.forall₂_iff_get.mp h
  rw [List.getElem?_eq_getElem (hlen ▸ hlt)]
  exact congrArg some ((hget k hlt (hlen ▸ hlt)).resolve_left hne).symm

/-- Where every weight is absent, so is every one of fewer. -/
theorem Thins.all_absent {absent : ℕ} {weights exact : List ℕ} (h : Thins absent weights exact)
    (hexact : exact.all (· = absent) = true) : weights.all (· = absent) = true := by
  simp only [List.all_eq_true, decide_eq_true_eq] at hexact ⊢
  intro weight hweight
  obtain ⟨k, hk⟩ := List.getElem?_of_mem hweight
  by_contra hne
  exact hne (hexact weight (List.mem_of_getElem? (h.getElem? hk hne)))

namespace Weigher

variable {E P M R : Type} [DecidableEq E] [Inhabited E] [Geometry P]

/-- The weigher of every candidate that searches as another one does. -/
def exhaustive (weigher : Weigher E P M R) : Weigher E P M R :=
  allCompute weigher.heap weigher.reachDistance

variable (weigher : Weigher E P M R) (costing : CostingStrategies E P) (ctx : RoutingContext E P M R)

/-! ### One source -/

theorem hop_exhaustive : weigher.exhaustive.hop costing ctx = weigher.hop costing ctx := rfl

theorem length_weighTarget (source : Candidate E P) (toLayer : List (Candidate E P))
    (row : List ℕ) (dst : ℕ) :
    (weigher.weighTarget costing ctx source toLayer row dst).length = row.length := by
  unfold weighTarget
  split
  · rfl
  · split
    · exact List.length_set
    · rfl

section Source

variable (source : Candidate E P) {target : Candidate E P} {toLayer : List (Candidate E P)} {k : ℕ}
  (htarget : toLayer[k]? = some target)
include htarget

/-- A weight is written where the candidate is weighed and reached. -/
theorem getElem?_weighTarget {row : List ℕ} (hlen : row.length = toLayer.length) (dst : ℕ) :
    (weigher.weighTarget costing ctx source toLayer row dst)[k]?
      = if dst = k then (weigher.hop costing ctx source.location target.location).or row[k]?
        else row[k]? := by
  unfold weighTarget
  by_cases hk : dst = k
  · subst hk
    have hlt : dst < row.length := by
      rw [hlen]
      exact (List.getElem?_eq_some_iff.mp htarget).1
    rw [htarget, if_pos rfl]
    cases hhop : weigher.hop costing ctx source.location target.location with
    | none => simp only [hhop, Option.none_or]
    | some cost => simp only [hhop, List.getElem?_set_self hlt, Option.some_or]
  · rw [if_neg hk]
    cases toLayer[dst]? with
    | none => rfl
    | some other =>
      cases hhop : weigher.hop costing ctx source.location other.location with
      | none => simp only [hhop]
      | some cost => simp only [hhop, List.getElem?_set_ne hk]

/-- The weight of a candidate is that of its hop, where it is weighed. -/
theorem getElem?_weighSource :
    (weigher.weighSource costing ctx toLayer source)[k]?
      = some (if k ∈ weigher.select ctx source toLayer
          then (weigher.hop costing ctx source.location target.location).getD noEdge
          else noEdge) := by
  have hrun : ∀ (selected row : List ℕ), row.length = toLayer.length →
      (selected.foldl (weigher.weighTarget costing ctx source toLayer) row)[k]?
        = if k ∈ selected
          then (weigher.hop costing ctx source.location target.location).or row[k]?
          else row[k]? := by
    intro selected
    induction selected with
    | nil => intro row _; rfl
    | cons dst selected ih =>
      intro row hlen
      have hrow : (weigher.weighTarget costing ctx source toLayer row dst).length
          = toLayer.length := by
        rw [length_weighTarget, hlen]
      rw [List.foldl_cons, ih _ hrow, weigher.getElem?_weighTarget costing ctx source htarget hlen]
      by_cases hk : dst = k
      · subst hk
        cases weigher.hop costing ctx source.location target.location <;> simp
      · simp [hk, Ne.symm hk]
  have hlt := (List.getElem?_eq_some_iff.mp htarget).1
  rw [weighSource, hrun _ _ List.length_replicate, List.getElem?_replicate, if_pos hlt]
  split_ifs with hk
  · cases weigher.hop costing ctx source.location target.location <;> rfl
  · rfl

end Source

/-- A source is weighed as exhaustively, but for absent weights. -/
theorem thins_weighSource (source : Candidate E P) (toLayer : List (Candidate E P)) :
    Thins noEdge (weigher.weighSource costing ctx toLayer source)
      (weigher.exhaustive.weighSource costing ctx toLayer source) := by
  have hlen := fun weigher : Weigher E P M R =>
    (isRow_weighSource weigher costing ctx source toLayer).length_eq
  refine List.forall₂_iff_get.mpr ⟨by rw [hlen, hlen], fun k hk hk' => ?_⟩
  have hlt : k < toLayer.length := hlen weigher ▸ hk
  have htarget := List.getElem?_eq_getElem hlt
  have hall : k ∈ weigher.exhaustive.select ctx source toLayer := List.mem_range.mpr hlt
  have hget := weigher.getElem?_weighSource costing ctx source htarget
  have hget' := weigher.exhaustive.getElem?_weighSource costing ctx source htarget
  rw [List.getElem?_eq_getElem hk, Option.some_inj] at hget
  rw [List.getElem?_eq_getElem hk', Option.some_inj, if_pos hall, hop_exhaustive] at hget'
  rw [List.get_eq_getElem, List.get_eq_getElem, hget, hget']
  split_ifs
  · exact Or.inr rfl
  · exact Or.inl rfl

/-! ### A boundary -/

/-- **A boundary is weighed as exhaustively**, but for absent edges. -/
theorem thins_weighBoundary (boundary : ℕ) :
    Thins noEdge (weigher.weighBoundary costing ctx boundary)
      (weigher.exhaustive.weighBoundary costing ctx boundary) := by
  unfold weighBoundary
  split
  · refine List.rel_flatten ?_
    rw [List.forall₂_map_left_iff, List.forall₂_map_right_iff]
    exact List.forall₂_same.mpr fun source _ => weigher.thins_weighSource costing ctx source _
  · exact List.Forall₂.nil

/-- What a boundary is resolved to is resolved exhaustively as well, and to the same weights but
for absent ones. -/
theorem thins_weighed {boundary : ℕ} {transition : Transition} {weights : List ℕ}
    (h : weigher.weighed costing ctx boundary transition = .resolved weights) :
    ∃ exact, weigher.exhaustive.weighed costing ctx boundary transition = .resolved exact ∧
      Thins infW weights exact := by
  cases transition with
  | resolved =>
    cases h
    exact ⟨weights, rfl, thins_refl infW weights⟩
  | pending =>
    have hthins := weigher.thins_weighBoundary costing ctx boundary
    simp only [weighed, Transition.isResolved, Bool.false_eq_true, if_false, bridged] at h ⊢
    split_ifs at h with hnone
    cases h
    rw [if_neg fun hall => hnone (hthins.all_absent hall)]
    refine ⟨_, rfl, ?_⟩
    rw [Thins, List.forall₂_map_left_iff, List.forall₂_map_right_iff]
    refine List.Forall₂.imp (fun weight exact hweight => ?_) hthins
    rcases hweight with rfl | rfl
    · exact Or.inl (if_pos rfl)
    · exact Or.inr rfl

theorem length_weighedTrellis (t : Trellis) :
    (weigher.weighedTrellis costing ctx t).transitions.length = t.transitions.length :=
  List.length_mapIdx

/-! ### The trellis -/

variable {ctx}

/-- **The trellis a weigher leaves is pruned** from the one that is weighed exhaustively. -/
theorem prunes_weighedTrellis {t : Trellis} (hv : t.Valid)
    (hwidths : ctx.candidates.layers.map List.length = t.widths) :
    (weigher.weighedTrellis costing ctx t).Prunes
      (weigher.exhaustive.weighedTrellis costing ctx t) := by
  have hvalid := weigher.weighedTrellis_valid costing hv hwidths
  have hvalid' := weigher.exhaustive.weighedTrellis_valid costing hv hwidths
  have hthins : ∀ (k : ℕ) (weights : List ℕ),
      (weigher.weighedTrellis costing ctx t).transitions[k]? = some (Transition.resolved weights) →
        ∃ exact, (weigher.exhaustive.weighedTrellis costing ctx t).transitions[k]?
          = some (Transition.resolved exact) ∧ Thins infW weights exact := by
    intro k weights hk
    simp only [weighedTrellis, List.getElem?_mapIdx] at hk ⊢
    obtain ⟨transition, htransition, hweighed⟩ := Option.map_eq_some_iff.mp hk
    obtain ⟨exact, hexact, hle⟩ := weigher.thins_weighed costing ctx hweighed
    exact ⟨exact, by rw [htransition, Option.map_some, hexact], hle⟩
  refine ⟨rfl, rfl, fun k i j hk hi hj hlt => ?_, fun hr => ?_⟩
  · obtain ⟨weights, hweights⟩ := Trellis.resolved_of_edgeWeight_lt hlt
    obtain ⟨exact, hexact, hle⟩ := hthins k weights hweights
    have hget := hvalid.getElem?_weights hweights hi hj
    have hget' := hvalid'.getElem?_weights hexact hi hj
    exact Option.some.inj (hget'.symm.trans (hle.getElem? hget hlt.ne))
  · rw [Trellis.fullyResolved_iff] at hr ⊢
    intro k hk
    rw [length_weighedTrellis] at hk
    obtain ⟨weights, hweights⟩ := hr k (by rwa [length_weighedTrellis])
    obtain ⟨exact, hexact, -⟩ := hthins k weights hweights
    exact ⟨exact, hexact⟩

/-- Where the fan-out covers every layer, the selective weigher weighs as the exhaustive one. -/
theorem weighedTrellis_selective (heap : Heap) (reachDistance : ℕ) {fanout : ℕ}
    (nearest : List ℚ → ℕ → List ℕ)
    (hfanout : ∀ layer ∈ ctx.candidates.layers, layer.length ≤ fanout) (t : Trellis) :
    (selective heap reachDistance fanout nearest).weighedTrellis costing ctx t
      = (allCompute heap reachDistance).weighedTrellis costing ctx t := by
  have hboundary : (selective heap reachDistance fanout nearest).weighBoundary costing ctx
      = (allCompute heap reachDistance).weighBoundary costing ctx := by
    funext boundary
    unfold weighBoundary
    cases hfrom : ctx.candidates.layer boundary with
    | none => rfl
    | some fromLayer =>
      cases hto : ctx.candidates.layer (boundary + 1) with
      | none => rfl
      | some toLayer =>
        have hle : toLayer.length ≤ fanout := hfanout toLayer (List.mem_of_getElem? hto)
        have hselect : ∀ source, (selective heap reachDistance fanout nearest).select ctx source
            toLayer = (allCompute heap reachDistance).select ctx source toLayer :=
          fun source => if_neg hle.not_gt
        have hsource : (selective heap reachDistance fanout nearest).weighSource costing ctx toLayer
            = (allCompute heap reachDistance).weighSource costing ctx toLayer := by
          funext source
          rw [weighSource, weighSource, hselect]
          rfl
        simp only [hsource]
  have hweighed : (selective heap reachDistance fanout nearest).weighed costing ctx
      = (allCompute heap reachDistance).weighed costing ctx := by
    funext boundary transition
    rw [weighed, weighed, bridged, bridged, hboundary]
  rw [weighedTrellis, weighedTrellis, hweighed]

end Weigher

variable {E P M R : Type} [DecidableEq E] [Inhabited E] [Geometry P] [Inhabited P]

/-- **Selective weighing refines exact weighing.**  On the trellis of every trip, whatever grew
it, both weighers succeed.  A fan-out that covers every layer leaves the same trellis.  Whatever
the fan-out, and however it selects, an edge it leaves has its exact weight, and a trellis that
it leaves solved is solved exactly as well, at no higher cost. -/
theorem selective_refines {allowed : Matcher E P M R → Prop} {trip : Trip E P}
    (h : Trip.Reached allowed trip) {t : Trellis} (ht : trip.trellis = some t)
    (map : Network E P M R) (runtime : R) (costing : CostingStrategies E P) (heap : Heap)
    (reachDistance fanout : ℕ) (nearest : List ℚ → ℕ → List ℕ) : ∃ selected exact : Trellis,
      (Weigher.selective heap reachDistance fanout nearest).weigh costing
        ⟨trip.candidates, map, runtime⟩ t = (.ok (), selected) ∧
      (Weigher.allCompute heap reachDistance).weigh costing
        ⟨trip.candidates, map, runtime⟩ t = (.ok (), exact) ∧
      ((∀ width ∈ t.widths, width ≤ fanout) → selected = exact) ∧
      (∀ k i j, k + 1 < t.layers → i < t.width k → j < t.width (k + 1) →
        selected.edgeWeight k i j < infW → exact.edgeWeight k i j = selected.edgeWeight k i j) ∧
      ∀ p, ViterbiSolver.solve selected = .ok p →
        ∃ q, ViterbiSolver.solve exact = .ok q ∧ q.cost ≤ p.cost := by
  obtain ⟨hv, hwidths, -⟩ := h.inv.mirrors t ht
  let weigher : Weigher E P M R := Weigher.selective heap reachDistance fanout nearest
  have hprunes : (weigher.weighedTrellis costing ⟨trip.candidates, map, runtime⟩ t).Prunes _ :=
    weigher.prunes_weighedTrellis costing hv hwidths
  refine ⟨_, _, Weigher.weigh_eq _ costing hv hwidths, Weigher.weigh_eq _ costing hv hwidths,
    fun hfanout => ?_, hprunes.edge_eq, fun p hp => ?_⟩
  · refine Weigher.weighedTrellis_selective costing heap reachDistance nearest (fun layer hl => ?_) t
    exact hfanout _ (hwidths ▸ List.mem_map_of_mem hl)
  · exact hprunes.solve (Weigher.weighedTrellis_valid _ costing hv hwidths)
      (Weigher.weighedTrellis_valid _ costing hv hwidths) hp

/-- A partial selection: the first of the candidates by distance. -/
def nearestFirst (distances : List ℚ) (n : ℕ) : List ℕ :=
  ((List.range distances.length).insertionSort fun i j =>
    distances.getD i 0 ≤ distances.getD j 0).take n

/-- Observations where two edges of the straight road meet. -/
def cornerTrip : Trip ℕ Milestone :=
  ((roadMatcher straightRoad).extend Trip.new [⟨⟨100⟩, 0⟩, ⟨⟨200⟩, 1⟩, ⟨⟨250⟩, 2⟩]).2

/-- One candidate of two weighed for each source. -/
theorem selective_refines_corners : ∃ t selected exact p q, cornerTrip.trellis = some t ∧
    (Weigher.selective listHeap 200000 1 nearestFirst).weigh (roadMatcher straightRoad).heuristics
      ⟨cornerTrip.candidates, straightRoad, ()⟩ t = (.ok (), selected) ∧
    (Weigher.allCompute listHeap 200000).weigh (roadMatcher straightRoad).heuristics
      ⟨cornerTrip.candidates, straightRoad, ()⟩ t = (.ok (), exact) ∧
    ViterbiSolver.solve selected = .ok p ∧ ViterbiSolver.solve exact = .ok q ∧
      q.cost ≤ p.cost := by
  have hsolves : (cornerTrip.trellis.map fun t => (ViterbiSolver.solve
      ((Weigher.selective listHeap 200000 1 nearestFirst).weigh
        (roadMatcher straightRoad).heuristics ⟨cornerTrip.candidates, straightRoad, ()⟩ t).2).isOk)
      = some true := by
    decide +kernel
  obtain ⟨t, ht, hok⟩ := Option.map_eq_some_iff.mp hsolves
  have hreached : Trip.Reached (· = roadMatcher straightRoad) cornerTrip := .extend _ .new rfl
  obtain ⟨selected, exact, hselected, hexact, -, -, hsolve⟩ := selective_refines hreached ht
    straightRoad () (roadMatcher straightRoad).heuristics listHeap 200000 1 nearestFirst
  rw [hselected] at hok
  cases hp : ViterbiSolver.solve selected with
  | error e =>
    rw [hp] at hok
    cases hok
  | ok p =>
    obtain ⟨q, hq, hle⟩ := hsolve p hp
    exact ⟨t, selected, exact, p, q, ht, hselected, hexact, hp, hq, hle⟩

end Routers
