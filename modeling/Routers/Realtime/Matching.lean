import Routers.Realtime.Event
import Routers.Transition.Picks

/-!
# The matcher service

The service takes up a continuation, pushes what is fresh, solves, and replies with what the
solve could still change.  It keeps of the trip what lies behind the convergence layer: the
layers before it are final, and have been emitted.

## Main definitions

* `Matching` — a network with the library's strategies.
* `Matching.solve` — the reply to a continuation.

## Main results

* `Matching.deterministic`, `Matching.priced` — what the library's strategies guarantee.
* `Matcher.Solution.getElem?_new` — **the layers of an emission, one an observation.**
* `Matching.solve_resume` — the reply to a resumed trip.

## References

`src/libs/routers_realtime/bin/matcher.rs` and `src/libs/routers_realtime/src/event.rs`.
-/

namespace Routers

variable {E P M R : Type}

/-- The matcher's answer to a continuation. -/
inductive MatchReply (E P : Type)
  /-- The emission, and the trip cut at its convergence point. -/
  | solved (diff : MatchedDiff E P) (trip : Trip E P)
  /-- There was nothing to emit. -/
  | noMatch

/-- The matcher service: a network, with the library's strategies as they are set. -/
structure Matching (E P M R : Type) where
  network : Network E P M R
  runtime : R
  emission : EmissionContext P → ℕ
  formula : List (P × E) → P → P → ResolutionMethod → Headings → VirtualTails → Option ℕ →
    Option ℕ → ℕ
  nearestNodesProjected : P → ℚ → List (P × Edge E)
  searchDistance : Option ℚ
  heap : Heap
  reachDistance : ℕ

/-- How far from an observation candidates are looked for, in metres. -/
def defaultSearchDistance : ℚ := 50

namespace Matching

/-- The matcher of a solve. -/
def matcher [Geometry P] (s : Matching E P M R) : Matcher E P M R where
  map := s.network
  heuristics := ⟨s.emission, defaultTransitionCost s.formula⟩
  generator := standardGenerator s.nearestNodesProjected
    (s.searchDistance.getD defaultSearchDistance) s.emission
  weigher := Weigher.allCompute s.heap s.reachDistance
  runtime := s.runtime

variable [DecidableEq E] [Inhabited E] [Geometry P] [Inhabited P] [DecidableEq P]

/-- Solve one context: the emission and the trip to resume, unless there is nothing to emit. -/
def solve (s : Matching E P M R) (continuation : Continuation E P) : MatchReply E P :=
  let (trip, fresh, downgraded) :=
    match continuation with
    | .resume trip fresh =>
      -- A trip of another shard may lead over edges that are not here.
      if !s.matcher.supports trip then (Trip.new, trip.origins ++ fresh, true)
      else (trip, fresh, false)
    | .restart fresh => (Trip.new, fresh, false)
  let trip := s.matcher.pushAll trip fresh
  if trip.origins.isEmpty then .noMatch
  else
    match s.matcher.solve trip with
    | (.error _, _) => .noMatch
    | (.ok _, trip) =>
      let origins := trip.origins
      match s.matcher.snapshot trip with
      | (.error _, _) => .noMatch
      | (.ok solution, trip) =>
        let diff := { MatchedDiff.new solution origins s.network 0 with downgraded := downgraded }
        .solved diff (Matcher.cutBehind trip)

omit [DecidableEq E] [Inhabited E] [Inhabited P] [DecidableEq P] in
theorem deterministic (s : Matching E P M R) : s.matcher.Deterministic :=
  deterministic_standard ..

omit [DecidableEq E] [Inhabited E] [Inhabited P] [DecidableEq P] in
theorem priced (s : Matching E P M R) : s.matcher.generator.Priced :=
  priced_standardGenerator s.nearestNodesProjected _ s.emission

/-- The emission of a solved trip. -/
def emit (s : Matching E P M R) (solution : CollapsedPath E P) (trip : Trip E P) :
    MatchedDiff E P :=
  MatchedDiff.new solution trip.origins s.network 0

/-- The reply to a resumed trip whose edges are all here is the snapshot of the trip with the fresh
observations, and what is left of it behind the convergence layer. -/
theorem solve_resume (s : Matching E P M R) {trip : Trip E P}
    (hreached : Trip.Reached (· = s.matcher) trip) (hsupports : s.matcher.supports trip)
    (fresh : List (Origin P)) {diff : MatchedDiff E P} {left : Trip E P}
    (h : s.solve (.resume trip fresh) = .solved diff left) :
    ∃ solution solved,
      s.matcher.snapshot (s.matcher.pushAll trip fresh) = (.ok solution, solved) ∧
      diff = s.emit solution (s.matcher.pushAll trip fresh) ∧ left = Matcher.cutBehind solved := by
  have hinv := (s.matcher.pushAll_spec s.deterministic.generator fresh hreached).1.inv
  unfold solve at h
  simp only [hsupports, Bool.not_true, Bool.false_eq_true, if_false] at h
  split at h
  · cases h
  obtain ⟨horigins, -⟩ := s.matcher.solve_frame hinv
  cases hsolve : s.matcher.solve (s.matcher.pushAll trip fresh) with
  | mk r after =>
    rw [hsolve] at h horigins
    cases r with
    | error e => cases h
    | ok path =>
      dsimp only at h
      cases hsnapshot : s.matcher.snapshot after with
      | mk r solved =>
        rw [hsnapshot] at h
        cases r with
        | error e => cases h
        | ok solution =>
          simp only [MatchReply.solved.injEq] at h
          rw [s.matcher.snapshot_solve hsolve] at hsnapshot
          refine ⟨solution, solved, hsnapshot, ?_, h.2.symm⟩
          rw [emit, ← horigins]
          exact h.1.symm

end Matching

/-! ### The layers of an emission -/

namespace Matcher.Solution

open Trellis (nodeAt)

variable [DecidableEq E] [Inhabited E] [Geometry P] [DecidableEq P] {m : Matcher E P M R}
  {trip : Trip E P} {t : Trellis} {path : Path} {collapsed : CollapsedPath E P}

omit [DecidableEq P] in
theorem length_route (s : m.Solution trip t path collapsed) :
    collapsed.route.length = trip.origins.length := by
  rw [s.collapsed_eq, ← s.length_nodes]
  exact List.length_mapIdx

/-- Each ref of the route has a candidate, so no layer is left out. -/
theorem isSome_layerAt (s : m.Solution trip t path collapsed) :
    ∀ entry ∈ (collapsed.route.zip trip.origins).zipIdx,
      (MatchedDiff.layerAt collapsed m.map entry).isSome := by
  rintro ⟨⟨chosen, origin⟩, index⟩ hentry
  rw [List.mem_zipIdx_iff_getElem?, List.getElem?_zip_eq_some] at hentry
  have hk : index < trip.origins.length := (List.getElem?_eq_some_iff.mp hentry.2).1
  obtain ⟨c, hroute, -, hc, -⟩ := s.candidate hk
  dsimp only at hentry
  rw [hroute, Option.some_inj] at hentry
  rw [MatchedDiff.layerAt, ← hentry.1]
  simp only [hc, Option.map_some, Option.isSome_some]

/-- **The layers of an emission** are one an observation, at the picked candidate, with the geometry
of the hop before; the first layer has none. -/
theorem getElem?_new (s : m.Solution trip t path collapsed) (revision : ℕ) {k : ℕ}
    (hk : k < trip.origins.length) :
    ∃ origin anchor, trip.origins[k]? = some origin ∧ collapsed.picked k = some anchor ∧
      (MatchedDiff.new collapsed trip.origins m.map revision).layers[k]? = some
        { timestamp := origin.timestamp
          edge := anchor.1
          position := anchor.2.1
          path := if k = 0 then [] else collapsed.hopGeometry (k - 1) m.map } := by
  obtain ⟨c, hroute, -, hc, hpicked⟩ := s.candidate hk
  refine ⟨trip.origins[k], c.anchor, List.getElem?_eq_getElem hk, hpicked, ?_⟩
  have hzip : (collapsed.route.zip trip.origins).zipIdx[k]?
      = some ((⟨k, nodeAt path.nodes k⟩, trip.origins[k]), k) := by
    have hpair : (collapsed.route.zip trip.origins)[k]?
        = some (⟨k, nodeAt path.nodes k⟩, trip.origins[k]) :=
      List.getElem?_zip_eq_some.mpr ⟨hroute, List.getElem?_eq_getElem hk⟩
    rw [List.getElem?_zipIdx, hpair, Option.map_some, Nat.zero_add]
  rw [MatchedDiff.new, Matcher.getElem?_filterMap s.isSome_layerAt, hzip, Option.bind_some,
    MatchedDiff.layerAt]
  simp only [hc, Option.map_some]
  rfl

theorem length_new (s : m.Solution trip t path collapsed) (revision : ℕ) :
    (MatchedDiff.new collapsed trip.origins m.map revision).layers.length = trip.origins.length := by
  rw [MatchedDiff.new, List.filterMap_length_eq_length.mpr s.isSome_layerAt]
  simp [s.length_route]

variable {trip' : Trip E P} {t' : Trellis} {path' : Path} {collapsed' : CollapsedPath E P}

/-- Layers of one observation, with the same picks there and in the layer before, are the same. -/
theorem getElem?_new_congr (s : m.Solution trip t path collapsed)
    (s' : m.Solution trip' t' path' collapsed') (revision : ℕ) {k k' : ℕ}
    (hk : k < trip.origins.length) (horigin : trip.origins[k]? = trip'.origins[k']?)
    (hpicked : collapsed.picked k = collapsed'.picked k') (hfirst : k = 0 ↔ k' = 0)
    (hbefore : k ≠ 0 → collapsed.picked (k - 1) = collapsed'.picked (k' - 1)) :
    (MatchedDiff.new collapsed trip.origins m.map revision).layers[k]?
      = (MatchedDiff.new collapsed' trip'.origins m.map revision).layers[k']? := by
  have hk' : k' < trip'.origins.length := by
    rw [List.getElem?_eq_getElem hk] at horigin
    exact (List.getElem?_eq_some_iff.mp horigin.symm).1
  obtain ⟨origin, anchor, ho, ha, hlayer⟩ := s.getElem?_new revision hk
  obtain ⟨origin', anchor', ho', ha', hlayer'⟩ := s'.getElem?_new revision hk'
  rw [ho, ho', Option.some_inj] at horigin
  rw [ha, ha', Option.some_inj] at hpicked
  subst horigin hpicked
  rw [hlayer, hlayer']
  by_cases hzero : k = 0
  · simp only [if_pos hzero, if_pos (hfirst.mp hzero)]
  · have hzero' : k' ≠ 0 := fun h => hzero (hfirst.mpr h)
    have hsucc : k - 1 + 1 = k := Nat.succ_pred hzero
    have hsucc' : k' - 1 + 1 = k' := Nat.succ_pred hzero'
    have hgeometry := s.hopGeometry_congr s' (by omega) (by omega) (hbefore hzero)
      (by rw [hsucc, hsucc', ha, ha'])
    simp only [hzero, hzero', if_false, hgeometry]

/-- An emission has the timestamps of its trip. -/
theorem timestamps_new (s : m.Solution trip t path collapsed) (revision : ℕ) :
    (MatchedDiff.new collapsed trip.origins m.map revision).layers.map MatchedLayer.timestamp
      = trip.origins.map Origin.timestamp := by
  refine List.ext_getElem? fun k => ?_
  rw [List.getElem?_map, List.getElem?_map]
  by_cases hk : k < trip.origins.length
  · obtain ⟨origin, anchor, ho, -, hlayer⟩ := s.getElem?_new revision hk
    rw [ho, hlayer]
    rfl
  · rw [List.getElem?_eq_none (not_lt.mp hk),
      List.getElem?_eq_none ((s.length_new revision).trans_le (not_lt.mp hk))]
    rfl

end Matcher.Solution

end Routers
