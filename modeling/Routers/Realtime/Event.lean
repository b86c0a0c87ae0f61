import Routers.Transition.Snapshot

/-!
# Emissions

What a solve emits is one layer for each observation of the trip, addressed by the
observation's timestamp.  Its position lies on the layer; the geometry driven into it lies
on the layer too, but for the first one's.

## Main definitions

* `VehicleId`, `MatchedLayer`, `MatchedDiff`, `MatchedEvent` — the messages.
* `MatchedLayer.segment` — the geometry driven into an observation.
* `MatchedDiff.segment` — what an emission says of a timestamp.
* `MatchedDiff.new` — the emission of a solved trip.

## Main results

* `MatchedDiff.flatMap_segment_new` — **the layers of an emission draw the solved path.**

## References

`src/libs/routers_realtime/src/event.rs`.
-/

namespace Routers

/-- A vehicle, by the hash of its upstream identifier. -/
structure VehicleId where
  id : UInt64
  deriving DecidableEq, Repr, Hashable

/-- One layer of matched history. -/
structure MatchedLayer (E P : Type) where
  timestamp : ℤ
  edge : Edge E
  position : P
  path : List P
  deriving DecidableEq, Repr

/-- Everything a solve could still change. -/
structure MatchedDiff (E P : Type) where
  revision : ℕ
  downgraded : Bool
  layers : List (MatchedLayer E P)
  deriving DecidableEq, Repr

/-- One vehicle's emission. -/
structure MatchedEvent (E P : Type) where
  vehicleId : VehicleId
  diff : MatchedDiff E P
  deriving DecidableEq, Repr

variable {E P M R : Type}

/-- The geometry driven into an observation: its inbound road path, then its position. -/
def MatchedLayer.segment (layer : MatchedLayer E P) : List P := layer.path ++ [layer.position]

namespace MatchedDiff

/-- What a diff says of a timestamp, by its last layer there. -/
def segment (diff : MatchedDiff E P) (timestamp : ℤ) : Option (List P) :=
  (diff.layers.reverse.find? fun layer => layer.timestamp = timestamp).map MatchedLayer.segment

/-- The layer at an index of the route, unless its ref has no candidate.  The geometry of the hop
into the first layer was emitted before. -/
def layerAt [DecidableEq P] (solution : CollapsedPath E P) (map : Network E P M R)
    (entry : (CandidateRef × Origin P) × ℕ) : Option (MatchedLayer E P) :=
  let ((chosen, origin), index) := entry
  (solution.candidates.candidate chosen).map fun candidate =>
    { timestamp := origin.timestamp
      edge := candidate.edge
      position := candidate.position
      path := if index = 0 then [] else solution.hopGeometry (index - 1) map }

/-- Lift a solved trip into its emission, a layer for each observation. -/
def new [DecidableEq P] (solution : CollapsedPath E P) (origins : List (Origin P))
    (map : Network E P M R) (revision : ℕ) : MatchedDiff E P :=
  { revision := revision
    downgraded := false
    layers := (solution.route.zip origins).zipIdx.filterMap (layerAt solution map) }

/-! ### The line that an emission draws -/

section Line

variable [DecidableEq P] (solution : CollapsedPath E P) (map : Network E P M R)

/-- What is drawn for a matched candidate: the hop into it, but for the first one, and its
position. -/
def piece (entry : Candidate E P × ℕ) : List P :=
  (if entry.2 = 0 then [] else solution.hopGeometry (entry.2 - 1) map) ++ [entry.1.position]

/-- A layer draws the piece of its candidate. -/
theorem layerAt_eq {chosen : CandidateRef} {candidate : Candidate E P}
    (h : solution.candidates.candidate chosen = some candidate) (origin : Origin P) (index : ℕ) :
    (layerAt solution map ((chosen, origin), index)).map MatchedLayer.segment
      = some (piece solution map (candidate, index)) := by
  rw [layerAt]
  simp only [h, Option.map_some]
  rfl

/-- The layers from an index on draw the pieces from there on, if no ref is without a candidate. -/
theorem flatMap_segment_layers (route : List CandidateRef) (origins : List (Origin P)) (n : ℕ)
    (hresolve : ∀ chosen ∈ route, (solution.candidates.candidate chosen).isSome = true)
    (hlength : origins.length = route.length) :
    (((route.zip origins).zipIdx n).filterMap (layerAt solution map)).flatMap MatchedLayer.segment
      = ((route.filterMap solution.candidates.candidate).zipIdx n).flatMap
        (piece solution map) := by
  induction route generalizing origins n with
  | nil => rfl
  | cons chosen route ih =>
    obtain _ | ⟨origin, origins⟩ := origins
    · cases hlength
    obtain ⟨candidate, hcandidate⟩ := Option.isSome_iff_exists.mp (hresolve chosen List.mem_cons_self)
    have hrest := ih origins (n + 1) (fun c hc => hresolve c (List.mem_cons_of_mem _ hc))
      (Nat.succ.inj hlength)
    obtain ⟨layer, hlayer, hsegment⟩ :=
      Option.map_eq_some_iff.mp (layerAt_eq solution map hcandidate origin n)
    rw [List.zip_cons_cons, List.zipIdx_cons, List.filterMap_cons_some hlayer, List.flatMap_cons,
      hrest, hsegment, List.filterMap_cons_some hcandidate, List.zipIdx_cons, List.flatMap_cons]

/-- The interpolated line is the pieces of the matched candidates. -/
theorem interpolatedLine_eq :
    solution.interpolatedLine map = solution.matched.zipIdx.flatMap (piece solution map) := by
  rw [CollapsedPath.interpolatedLine]
  cases solution.matched with
  | nil => rfl
  | cons first rest =>
    rw [List.zipIdx_cons, List.flatMap_cons]
    refine congrArg _ (List.flatMap_congr fun entry hentry => ?_)
    -- Behind the first candidate every piece has its hop.
    have hpos : entry.2 ≠ 0 := by
      have := List.le_snd_of_mem_zipIdx hentry
      omega
    rw [piece, if_neg hpos]

/-- **The layers of an emission draw the solved path**: one after the other, each layer's path and
then its position are the points of the interpolated line. -/
theorem flatMap_segment_new (origins : List (Origin P)) (revision : ℕ)
    (hresolve : ∀ chosen ∈ solution.route, (solution.candidates.candidate chosen).isSome = true)
    (hlength : origins.length = solution.route.length) :
    (new solution origins map revision).layers.flatMap MatchedLayer.segment
      = solution.interpolatedLine map := by
  rw [new, flatMap_segment_layers solution map _ _ _ hresolve hlength, interpolatedLine_eq]
  rfl

/-- The trip along the road, solved and rendered. -/
theorem flatMap_segment_new_road : ∃ collapsed after,
    (roadMatcher straightRoad).snapshot solvedTrip = (.ok collapsed, after) ∧
      (new collapsed solvedTrip.origins straightRoad 0).layers.flatMap MatchedLayer.segment
        = collapsed.interpolatedLine straightRoad := by
  have hok : ((roadMatcher straightRoad).snapshot solvedTrip).1.toOption.map (fun collapsed =>
      decide ((∀ chosen ∈ collapsed.route, (collapsed.candidates.candidate chosen).isSome = true)
        ∧ solvedTrip.origins.length = collapsed.route.length)) = some true := by
    decide +kernel
  rcases hsnapshot : (roadMatcher straightRoad).snapshot solvedTrip with ⟨r, after⟩
  rw [hsnapshot] at hok
  cases r with
  | error e => cases hok
  | ok collapsed =>
    obtain ⟨hresolve, hlength⟩ := of_decide_eq_true (Option.some.inj hok)
    exact ⟨collapsed, after, rfl,
      flatMap_segment_new collapsed straightRoad solvedTrip.origins 0 hresolve hlength⟩

end Line

end MatchedDiff

end Routers
