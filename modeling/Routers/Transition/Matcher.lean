import Routers.Transition.Trip
import Routers.Transition.Weigher

/-!
# The matcher

A matcher grows a trip by observations, weighs and solves what it has grown, and reads
the solution off as a path over the network.  Each operation returns its result together
with the trip it leaves; a failing one is to leave the trip as it found it, but for the
weights it could resolve.

## Main definitions

* `Matcher` — a network and a runtime with the strategies of a match.
* `Matcher.push`, `extend`, `solve` — growing and solving a trip.
* `Matcher.collapse`, `snapshot`, `rMatch` — the solution as a path.
* `Trip.Reached` — the trips that any run of operations leads to.

## Main results

* `Matcher.solve_spec` — what a solve returns, and leaves.
* `Trip.Reached.inv` — every trip reached is in order.
* `trip_invariant` — **the trip invariant, and what failing operations leave alone.**

## References

`src/libs/routers_transition/src/matcher/entity.rs` and
`src/libs/routers_transition/src/candidate/collapse.rs`.
-/

namespace Routers

/-- The network and the strategies of a match. -/
structure Matcher (E P M R : Type) where
  map : Network E P M R
  heuristics : CostingStrategies E P
  generator : LayerGeneration E P
  weigher : Weigher E P M R
  runtime : R

/-- The store-independent parts of a collapsed path. -/
structure Collapse (E : Type) where
  cost : ℕ
  route : List CandidateRef
  interpolated : List (Reachable E)
  deriving DecidableEq, Repr

/-- A solved match: the chosen candidate for each input point, and one hop for each two
of them in a row. -/
structure CollapsedPath (E P : Type) where
  cost : ℕ
  route : List CandidateRef
  interpolated : List (Reachable E)
  candidates : CandidateStore E P

namespace Matcher

variable {E P M R : Type}

/-- The routing context over a trip's candidates. -/
def context (m : Matcher E P M R) (trip : Trip E P) : RoutingContext E P M R :=
  ⟨trip.candidates, m.map, m.runtime⟩

/-- Append one observation as a new layer; one with no candidate is rejected. -/
def push (m : Matcher E P M R) (trip : Trip E P) (origin : Origin P) :
    Except (MatchError P) ℕ × Trip E P :=
  let layer := trip.nextId
  let candidates := m.generator.candidates origin.point layer
  if candidates.isEmpty then (.error (.unanchored [⟨layer, origin.point⟩]), trip)
  else
    match trip.pushLayer origin candidates with
    | (.ok id, trip) => (.ok id, trip)
    | (.error e, trip) => (.error (.trellisError e), trip)

/-- Push layers one after another, until one is refused. -/
def pushLayers (trip : Trip E P) :
    List (Origin P × List (Candidate E P)) → Except (MatchError P) Unit × Trip E P
  | [] => (.ok (), trip)
  | (origin, candidates) :: rest =>
    match trip.pushLayer origin candidates with
    | (.ok _, trip) => pushLayers trip rest
    | (.error e, trip) => (.error (.trellisError e), trip)

/-- Append many observations at once; any with no candidate rejects them all, and every
such one is reported. -/
def extend (m : Matcher E P M R) (trip : Trip E P) (origins : List (Origin P)) :
    Except (MatchError P) Unit × Trip E P :=
  let firstLayer := trip.nextId
  let points := origins.map Origin.point
  let perLayer := m.generator.generate points firstLayer
  let unanchored := ((perLayer.zip points).zipIdx.filter fun p => p.1.1.isEmpty).map fun p =>
    (⟨firstLayer + p.2, p.1.2⟩ : Unanchored P)
  if !unanchored.isEmpty then (.error (.unanchored unanchored), trip)
  else pushLayers trip (origins.zip perLayer)

/-- Boundary breaks as an error, with the origins of the layers on each side. -/
def disconnected [Inhabited P] (trip : Trip E P) (breaks : List ℕ) : MatchError P :=
  .disconnected (breaks.map fun boundary =>
    { fromLayer := boundary
      toLayer := boundary + 1
      fromOrigin := (trip.point boundary).getD default
      toOrigin := (trip.point (boundary + 1)).getD default })

/-- Map a solved node path to the chosen candidate of each layer. -/
def routeOf (path : Path) : List CandidateRef :=
  path.nodes.mapIdx fun layer node => ⟨layer, node⟩

/-- Whether every candidate of the trip resolves against this matcher's network. -/
def supports (m : Matcher E P M R) (trip : Trip E P) : Bool :=
  trip.candidates.iter.all fun candidate =>
    (m.map.point candidate.edge.source).isSome && (m.map.point candidate.edge.target).isSome

/-- The latest layer of the trip's solution that no push can change. -/
def convergence (trip : Trip E P) : Except (MatchError P) (Option ℕ) :=
  match trip.trellis with
  | none => .error (.trellisError .empty)
  | some trellis =>
    match ViterbiSolver.convergence trellis with
    | .ok layer => .ok layer
    | .error e => .error (.solveError e)

section Solve

variable [DecidableEq E] [Inhabited E] [Geometry P] [Inhabited P]

/-- Weigh every pending boundary and find the minimum-cost path through the trip. -/
def solve (m : Matcher E P M R) (trip : Trip E P) : Except (MatchError P) Path × Trip E P :=
  match trip.state with
  | .empty => (.error (.trellisError .empty), trip.restore .empty)
  -- nothing pending: the certificate stands
  | .solved solved => (.ok solved.path, trip.restore (.solved solved))
  | .building trellis =>
    match m.weigher.weigh m.heuristics (m.context trip) trellis with
    | (.error e, trellis) => (.error e, trip.restore (.building trellis))
    | (.ok (), trellis) =>
      let gaps := trellis.disconnections
      if !gaps.isEmpty then (.error (disconnected trip gaps), trip.restore (.building trellis))
      else
        match trellis.solve with
        | .ok solved => (.ok solved.path, trip.restore (.solved solved))
        -- every boundary is resolved, and yet the reachable frontier dies on the way
        | .error (trellis, .unreachable) =>
          (.error (disconnected trip (frontierCollapse trellis)), trip.restore (.building trellis))
        | .error (trellis, e) => (.error (.solveError e), trip.restore (.building trellis))

/-- Solve and derive the total cost, the chosen candidate of each layer, and the routed
geometry of each hop; a hop that is not reached is dropped. -/
def collapse (m : Matcher E P M R) (trip : Trip E P) :
    Except (MatchError P) (Collapse E) × Trip E P :=
  match m.solve trip with
  | (.error e, trip) => (.error e, trip)
  | (.ok path, trip) =>
    let route := routeOf path
    let interpolated := (route.zip route.tail).filterMap fun hop =>
      m.weigher.reach (m.context trip) hop.1 hop.2
    (.ok ⟨path.cost, route, interpolated⟩, trip)

/-- Solve and collapse the trip's current solution; the trip keeps its candidates. -/
def snapshot (m : Matcher E P M R) (trip : Trip E P) :
    Except (MatchError P) (CollapsedPath E P) × Trip E P :=
  match m.collapse trip with
  | (.error e, trip) => (.error e, trip)
  | (.ok collapse, trip) =>
    (.ok ⟨collapse.cost, collapse.route, collapse.interpolated, trip.candidates⟩, trip)

/-- Match a whole trajectory in one call; indices stand in for observation times. -/
def rMatch (m : Matcher E P M R) (linestring : List P) :
    Except (MatchError P) (CollapsedPath E P) :=
  let origins := linestring.mapIdx fun index point => (⟨point, index⟩ : Origin P)
  match m.extend Trip.new origins with
  | (.error e, _) => .error e
  | (.ok (), trip) =>
    match m.collapse trip with
    | (.error e, _) => .error e
    | (.ok collapse, trip) =>
      .ok ⟨collapse.cost, collapse.route, collapse.interpolated, trip.candidates⟩

end Solve

end Matcher

/-- The trips that runs of operations lead to, by matchers of a kind. -/
inductive Trip.Reached {E P M R : Type} [DecidableEq E] [Inhabited E] [Geometry P] [Inhabited P]
    (allowed : Matcher E P M R → Prop) : Trip E P → Prop
  | new : Reached allowed Trip.new
  | push {trip m} (origin : Origin P) : Reached allowed trip → allowed m →
      Reached allowed (m.push trip origin).2
  | extend {trip m} (origins : List (Origin P)) : Reached allowed trip → allowed m →
      Reached allowed (m.extend trip origins).2
  | solve {trip m} : Reached allowed trip → allowed m → Reached allowed (m.solve trip).2
  | snapshot {trip m} : Reached allowed trip → allowed m → Reached allowed (m.snapshot trip).2
  | tail {trip} (n : ℕ) : Reached allowed trip → Reached allowed (trip.tail n)

namespace Matcher

variable {E P M R : Type}

/-! ### Pushing -/

/-- A push is rejected and leaves the trip alone, or pushes a layer of candidates. -/
theorem push_cases (m : Matcher E P M R) (trip : Trip E P) (origin : Origin P) :
    (m.generator.candidates origin.point trip.nextId = [] ∧
        ∃ points, m.push trip origin = (.error (.unanchored points), trip)) ∨
      (m.generator.candidates origin.point trip.nextId ≠ [] ∧
        (m.push trip origin).2
          = (trip.pushLayer origin (m.generator.candidates origin.point trip.nextId)).2 ∧
        ∀ points, (m.push trip origin).1 ≠ .error (.unanchored points)) := by
  unfold push
  simp only [List.isEmpty_iff]
  by_cases hempty : m.generator.candidates origin.point trip.nextId = []
  · rw [if_pos hempty]
    exact Or.inl ⟨hempty, _, rfl⟩
  · rw [if_neg hempty]
    refine Or.inr ⟨hempty, ?_⟩
    rcases trip.pushLayer origin (m.generator.candidates origin.point trip.nextId) with ⟨r, after⟩
    cases r with
    | ok id => exact ⟨rfl, fun points h => by cases h⟩
    | error e => exact ⟨rfl, fun points h => by cases h⟩

/-- Layers that are not empty are all pushed, and what each push keeps is kept. -/
theorem pushLayers_spec : ∀ (pairs : List (Origin P × List (Candidate E P))) {trip : Trip E P},
    trip.Inv → (∀ p ∈ pairs, p.2 ≠ []) → ∃ after, pushLayers trip pairs = (.ok (), after) ∧
      after.origins = trip.origins ++ pairs.map Prod.fst ∧
      ∀ Q : Trip E P → Prop, Q trip → (∀ trip origin candidates, trip.Inv → Q trip →
        (origin, candidates) ∈ pairs → Q (trip.pushLayer origin candidates).2) → Q after := by
  intro pairs
  induction pairs with
  | nil => intro trip _ _; exact ⟨trip, rfl, by simp, fun Q hQ _ => hQ⟩
  | cons p pairs ih =>
    obtain ⟨origin, candidates⟩ := p
    intro trip hinv hne
    obtain ⟨t, hpush, hinv', -⟩ := hinv.pushLayer origin (hne _ List.mem_cons_self)
    rw [hpush] at hinv'
    obtain ⟨after, hafter, horigins, hkeep⟩ :=
      ih hinv' fun p hp => hne p (List.mem_cons_of_mem _ hp)
    refine ⟨after, ?_, ?_, fun Q hQ hstep => ?_⟩
    · rw [pushLayers, hpush]
      exact hafter
    · rw [horigins]
      simp
    · refine hkeep Q ?_ fun trip origin candidates hinv hQ hmem =>
        hstep trip origin candidates hinv hQ (List.mem_cons_of_mem _ hmem)
      have hfirst := hstep trip origin candidates hinv hQ List.mem_cons_self
      rwa [hpush] at hfirst

/-- An extension reports no unanchored point exactly when every layer has candidates. -/
theorem unanchored_eq_nil_iff {points : List P} {perLayer : List (List (Candidate E P))}
    (hlen : perLayer.length = points.length) :
    ((perLayer.zip points).zipIdx.filter fun p => p.1.1.isEmpty) = [] ↔
      ∀ candidates ∈ perLayer, candidates ≠ [] := by
  rw [List.filter_eq_nil_iff]
  constructor
  · intro h candidates hmem hnil
    obtain ⟨k, hk⟩ := List.getElem?_of_mem hmem
    have hpoint : k < points.length := hlen ▸ (List.getElem?_eq_some_iff.mp hk).1
    have hzip : (perLayer.zip points)[k]? = some (candidates, points[k]) :=
      List.getElem?_zip_eq_some.mpr ⟨hk, List.getElem?_eq_getElem hpoint⟩
    have hindexed : ((candidates, points[k]), k) ∈ (perLayer.zip points).zipIdx :=
      List.mem_zipIdx_iff_getElem?.mpr hzip
    exact h _ hindexed (by rw [hnil]; rfl)
  · intro h p hp
    have hzip := List.mem_of_getElem? (List.mem_zipIdx_iff_getElem?.mp hp)
    have hne := h _ (List.of_mem_zip hzip).1
    simpa using hne

/-- An extension is rejected and leaves the trip alone, or every origin has candidates
and their layers are pushed. -/
theorem extend_cases (m : Matcher E P M R) (trip : Trip E P) (origins : List (Origin P)) :
    ((∃ candidates ∈ m.generator.generate (origins.map Origin.point) trip.nextId,
        candidates = []) ∧ ∃ points, m.extend trip origins = (.error (.unanchored points), trip)) ∨
      ((∀ candidates ∈ m.generator.generate (origins.map Origin.point) trip.nextId,
          candidates ≠ []) ∧
        m.extend trip origins = pushLayers trip
          (origins.zip (m.generator.generate (origins.map Origin.point) trip.nextId))) := by
  have hlen : (m.generator.generate (origins.map Origin.point) trip.nextId).length
      = (origins.map Origin.point).length := by
    simp [LayerGeneration.generate]
  have hiff := unanchored_eq_nil_iff hlen
  unfold extend
  simp only [List.isEmpty_map, Bool.not_eq_true', List.isEmpty_eq_false_iff]
  split_ifs with h
  · left
    rw [ne_eq, hiff] at h
    push Not at h
    exact ⟨h, _, rfl⟩
  · right
    exact ⟨hiff.mp (not_not.mp h), rfl⟩

/-! ### Anchored origins -/

/-- Whether the generator finds a candidate for the origin. -/
def anchors (m : Matcher E P M R) (origin : Origin P) : Bool :=
  !(m.generator.candidates origin.point 0).isEmpty

theorem candidates_ne_nil (m : Matcher E P M R) (hgenerator : m.generator.Placeless)
    (origin : Origin P) (layer : ℕ) :
    m.generator.candidates origin.point layer ≠ [] ↔ m.anchors origin = true := by
  have hlen := congrArg List.length (hgenerator origin.point layer 0)
  simp only [List.length_map] at hlen
  rw [anchors, Bool.not_eq_true', List.isEmpty_eq_false_iff, ← List.length_pos_iff,
    ← List.length_pos_iff, hlen]

/-- A push appends its origin if that is anchored. -/
theorem origins_push (m : Matcher E P M R) (hgenerator : m.generator.Placeless) {trip : Trip E P}
    (hinv : trip.Inv) (origin : Origin P) :
    (m.push trip origin).2.origins = trip.origins ++ [origin].filter m.anchors := by
  have hanchors := m.candidates_ne_nil hgenerator origin trip.nextId
  rcases m.push_cases trip origin with ⟨hnil, points, hreject⟩ | ⟨hne, hpush, -⟩
  · have hoff : ¬ m.anchors origin = true := fun h => hanchors.mpr h hnil
    simp [hreject, hoff]
  · obtain ⟨t, haccept, -⟩ := hinv.pushLayer origin hne
    simp [hpush, haccept, hanchors.mp hne]

/-- Origins that are all anchored are accepted together. -/
theorem extend_accept (m : Matcher E P M R) (hgenerator : m.generator.Placeless) {trip : Trip E P}
    (hinv : trip.Inv)
    {origins : List (Origin P)} (hanchors : ∀ origin ∈ origins, m.anchors origin = true) :
    ∃ after, m.extend trip origins = (.ok (), after) ∧ after.origins = trip.origins ++ origins := by
  have hne : ∀ candidates ∈ m.generator.generate (origins.map Origin.point) trip.nextId,
      candidates ≠ [] := by
    intro candidates hmem
    obtain ⟨k, hk⟩ := List.getElem?_of_mem hmem
    rw [LayerGeneration.generate, List.getElem?_mapIdx, List.getElem?_map] at hk
    obtain ⟨point, hpoint, rfl⟩ := Option.map_eq_some_iff.mp hk
    obtain ⟨origin, horigin, rfl⟩ := Option.map_eq_some_iff.mp hpoint
    exact (m.candidates_ne_nil hgenerator origin _).mpr
      (hanchors origin (List.mem_of_getElem? horigin))
  obtain ⟨after, hafter, horigins, -⟩ := pushLayers_spec
    (origins.zip (m.generator.generate (origins.map Origin.point) trip.nextId)) hinv
    fun p hp => hne p.2 (List.of_mem_zip hp).2
  refine ⟨after, ?_, ?_⟩
  · rcases m.extend_cases trip origins with ⟨⟨candidates, hmem, hnil⟩, -⟩ | ⟨-, hpush⟩
    · exact absurd hnil (hne candidates hmem)
    · rw [hpush, hafter]
  · rw [horigins, List.map_fst_zip]
    simp [LayerGeneration.generate]

/-- A push keeps the trip in order. -/
theorem inv_push (m : Matcher E P M R) {trip : Trip E P} (hinv : trip.Inv) (origin : Origin P) :
    (m.push trip origin).2.Inv := by
  rcases m.push_cases trip origin with ⟨-, points, hreject⟩ | ⟨hne, hpush, -⟩
  · rw [hreject]
    exact hinv
  · rw [hpush]
    obtain ⟨t, -, hinv', -⟩ := hinv.pushLayer origin hne
    exact hinv'

/-- An extension keeps the trip in order. -/
theorem inv_extend (m : Matcher E P M R) {trip : Trip E P} (hinv : trip.Inv)
    (origins : List (Origin P)) : (m.extend trip origins).2.Inv := by
  rcases m.extend_cases trip origins with ⟨-, points, hreject⟩ | ⟨hne, hpush⟩
  · rw [hreject]
    exact hinv
  · obtain ⟨after, hafter, -, hkeep⟩ := pushLayers_spec
      (origins.zip (m.generator.generate (origins.map Origin.point) trip.nextId)) hinv
      fun p hp => hne p.2 (List.of_mem_zip hp).2
    rw [hpush, hafter]
    refine hkeep Trip.Inv hinv fun trip origin candidates hinv _ hmem => ?_
    obtain ⟨t, -, hinv', -⟩ := hinv.pushLayer origin (hne candidates (List.of_mem_zip hmem).2)
    exact hinv'

/-! ### Solving -/

section Solve

variable [DecidableEq E] [Inhabited E] [Geometry P] [Inhabited P]

/-- The trellis a solve works on once it has weighed the pending boundaries. -/
def weighed (m : Matcher E P M R) (trip : Trip E P) (t : Trellis) : Trellis :=
  m.weigher.weighedTrellis m.heuristics (m.context trip) t

/-- What a solve returns for the trellis it has weighed. -/
def outcome (trip : Trip E P) (t : Trellis) : Except (MatchError P) Path :=
  if !t.disconnections.isEmpty then .error (disconnected trip t.disconnections)
  else
    match ViterbiSolver.solve t with
    | .ok path => .ok path
    | .error .unreachable => .error (disconnected trip (frontierCollapse t))
    | .error e => .error (.solveError e)

variable {trip : Trip E P} (m : Matcher E P M R)

theorem solve_empty (h : trip.state = .empty) :
    m.solve trip = (.error (.trellisError .empty), trip) := by
  unfold solve
  rw [h]
  simp only [Trip.restore, ← h]

theorem solve_solved {s : Solved} (h : trip.state = .solved s) :
    m.solve trip = (.ok s.path, trip) := by
  unfold solve
  rw [h]
  simp only [Trip.restore, ← h]

/-- A solution stands until something is pushed. -/
theorem solve_solve {path : Path} {after : Trip E P} (h : m.solve trip = (.ok path, after)) :
    m.solve after = (.ok path, after) := by
  have hsolved : ∃ solved : Solved, after.state = .solved solved ∧ solved.path = path := by
    unfold solve at h
    split at h
    · cases h
    · cases h
      exact ⟨_, rfl, rfl⟩
    · split at h
      · cases h
      · dsimp only at h
        split at h
        · cases h
        · split at h
          · cases h
            exact ⟨_, rfl, rfl⟩
          · cases h
          · cases h
  obtain ⟨solved, hstate, rfl⟩ := hsolved
  exact m.solve_solved hstate

theorem snapshot_solve {path : Path} {after : Trip E P} (h : m.solve trip = (.ok path, after)) :
    m.snapshot after = m.snapshot trip := by
  unfold snapshot collapse
  rw [m.solve_solve h, h]

omit [Inhabited P] in
/-- A trip in order is valid once weighed. -/
theorem weighed_valid (hinv : trip.Inv) {t : Trellis} (ht : trip.trellis = some t) :
    (m.weighed trip t).Valid := by
  have hmirrors := hinv.mirrors t ht
  exact m.weigher.weighedTrellis_valid m.heuristics hmirrors.valid hmirrors.widths_eq

/-- **A solve of a building trip** returns the outcome of the weighed trellis, which it
leaves in the trip, with its certificate if it has one. -/
theorem solve_building (hinv : trip.Inv) {t : Trellis} (h : trip.state = .building t) :
    ∃ state, m.solve trip = (outcome trip (m.weighed trip t), trip.restore state) ∧
      state.trellis = some (m.weighed trip t) := by
  have hmirrors := hinv.mirrors t (by rw [Trip.trellis, h]; rfl)
  have hweigh : m.weigher.weigh m.heuristics (m.context trip) t = (.ok (), m.weighed trip t) :=
    m.weigher.weigh_eq m.heuristics hmirrors.valid hmirrors.widths_eq
  unfold solve outcome
  rw [h]
  simp only [hweigh]
  by_cases hgaps : (!(m.weighed trip t).disconnections.isEmpty) = true
  · rw [if_pos hgaps, if_pos hgaps]
    exact ⟨_, rfl, rfl⟩
  · rw [if_neg hgaps, if_neg hgaps]
    cases hsolve : ViterbiSolver.solve (m.weighed trip t) with
    | ok path =>
      rw [Trellis.solve_of_ok hsolve]
      exact ⟨_, rfl, rfl⟩
    | error e =>
      rw [Trellis.solve_of_error hsolve]
      cases e with
      | notResolved l => exact ⟨_, rfl, rfl⟩
      | unreachable => exact ⟨_, rfl, rfl⟩

/-- **What a solve leaves**: the origins, the candidates, the nodes with their weights and
every resolved boundary. -/
theorem solve_frame (hinv : trip.Inv) : (m.solve trip).2.origins = trip.origins ∧
    (m.solve trip).2.candidates = trip.candidates ∧
    (trip.trellis = none → (m.solve trip).2 = trip) ∧
    ∀ t, trip.trellis = some t → ∃ t', (m.solve trip).2.trellis = some t' ∧
      Mirrors trip.candidates t' ∧ t'.widths = t.widths ∧ t'.nodes = t.nodes ∧
      ∀ (k : ℕ) (weights : List ℕ), t.transitions[k]? = some (Transition.resolved weights) →
        t'.transitions[k]? = some (Transition.resolved weights) := by
  cases hstate : trip.state with
  | empty =>
    rw [m.solve_empty hstate]
    refine ⟨rfl, rfl, fun _ => rfl, fun t ht => ?_⟩
    rw [Trip.trellis, hstate] at ht
    cases ht
  | solved s =>
    rw [m.solve_solved hstate]
    exact ⟨rfl, rfl, fun _ => rfl, fun t ht =>
      ⟨t, ht, hinv.mirrors t ht, rfl, rfl, fun k weights hk => hk⟩⟩
  | building u =>
    obtain ⟨state, hsolve, htrellis⟩ := m.solve_building hinv hstate
    rw [hsolve]
    refine ⟨rfl, rfl, fun hnone => ?_, fun t ht => ?_⟩
    · rw [Trip.trellis, hstate] at hnone
      cases hnone
    · have hmirrors := hinv.mirrors t ht
      have hvalid := m.weighed_valid hinv ht
      rw [Trip.trellis, hstate] at ht
      cases ht
      refine ⟨m.weighed trip u, htrellis, hmirrors.of_eq hvalid rfl rfl, rfl, rfl,
        fun k weights hk => ?_⟩
      simp only [weighed, Weigher.weighedTrellis, List.getElem?_mapIdx, hk]
      rfl

/-- A solve keeps the trip in order. -/
theorem inv_solve (hinv : trip.Inv) : (m.solve trip).2.Inv := by
  obtain ⟨horigins, hcandidates, hnone, hsome⟩ := m.solve_frame hinv
  cases htrellis : trip.trellis with
  | none =>
    rw [hnone htrellis]
    exact hinv
  | some t =>
    obtain ⟨t', ht', hmirrors, -⟩ := hsome t htrellis
    have hrestored : (trip.restore (m.solve trip).2.state).Inv :=
      hinv.restore htrellis ht' hmirrors
    rwa [Trip.restore, ← horigins, ← hcandidates] at hrestored

theorem snapshot_trip : (m.snapshot trip).2 = (m.solve trip).2 := by
  unfold snapshot collapse
  rcases m.solve trip with ⟨r, after⟩
  cases r with
  | ok path => rfl
  | error e => rfl

end Solve

end Matcher

/-! ### The invariant of trips -/

section Invariant

variable {E P M R : Type} [DecidableEq E] [Inhabited E] [Geometry P] [Inhabited P]

/-- **Every trip reached is in order**, by whichever matchers. -/
theorem Trip.Reached.inv {allowed : Matcher E P M R → Prop} {trip : Trip E P}
    (h : Trip.Reached allowed trip) : trip.Inv := by
  induction h with
  | new => exact Trip.inv_new
  | push origin _ _ ih => exact Matcher.inv_push _ ih origin
  | extend origins _ _ ih => exact Matcher.inv_extend _ ih origins
  | solve _ _ ih => exact Matcher.inv_solve _ ih
  | snapshot _ _ ih =>
    rw [Matcher.snapshot_trip]
    exact Matcher.inv_solve _ ih
  | tail n _ ih => exact ih.tail n

/-- **The trip invariant.**  Every trip reached by pushes, extensions, solves, snapshots and
cuts, failed or not and by whichever matchers, is well formed; a rejected push or
extension leaves it unchanged, and a failed solve leaves everything but the boundaries
that were pending. -/
theorem trip_invariant {allowed : Matcher E P M R → Prop} {trip : Trip E P}
    (h : Trip.Reached allowed trip) : trip.WellFormed ∧
      (∀ (m : Matcher E P M R) origin points after,
        m.push trip origin = (.error (.unanchored points), after) → after = trip) ∧
      (∀ (m : Matcher E P M R) origins points after,
        m.extend trip origins = (.error (.unanchored points), after) → after = trip) ∧
      ∀ (m : Matcher E P M R) e after, m.solve trip = (.error e, after) →
        after.origins = trip.origins ∧ after.candidates = trip.candidates ∧
        (trip.origins ≠ [] → after.state ≠ .empty) ∧
        ∀ t, trip.trellis = some t → ∃ t', after.trellis = some t' ∧ t'.widths = t.widths ∧
          t'.nodes = t.nodes ∧
          ∀ (k : ℕ) (weights : List ℕ), t.transitions[k]? = some (Transition.resolved weights) →
            t'.transitions[k]? = some (Transition.resolved weights) := by
  have hinv := h.inv
  refine ⟨hinv.wellFormed, fun m origin points after hpush => ?_,
    fun m origins points after hextend => ?_, fun m e after hsolve => ?_⟩
  · rcases m.push_cases trip origin with ⟨-, points', hreject⟩ | ⟨-, -, hother⟩
    · rw [hreject] at hpush
      cases hpush
      rfl
    · exact absurd (congrArg Prod.fst hpush) (hother points)
  · rcases m.extend_cases trip origins with ⟨-, points', hreject⟩ | ⟨hne, hpushed⟩
    · rw [hreject] at hextend
      cases hextend
      rfl
    · obtain ⟨after', hafter, -⟩ := Matcher.pushLayers_spec
        (origins.zip (m.generator.generate (origins.map Origin.point) trip.nextId)) hinv
        fun p hp => hne p.2 (List.of_mem_zip hp).2
      rw [hpushed, hafter] at hextend
      cases hextend
  · obtain ⟨horigins, hcandidates, -, hsome⟩ := m.solve_frame hinv
    rw [hsolve] at horigins hcandidates hsome
    refine ⟨horigins, hcandidates, fun hne hempty => ?_, fun t ht => ?_⟩
    · cases htrellis : trip.trellis with
      | none => exact hne (hinv.empty_iff.mp htrellis)
      | some t =>
        obtain ⟨t', ht', -⟩ := hsome t htrellis
        rw [Trip.trellis, hempty] at ht'
        cases ht'
    · obtain ⟨t', ht', -, hwidths, hnodes, hkeep⟩ := hsome t ht
      exact ⟨t', ht', hwidths, hnodes, hkeep⟩

end Invariant

/-! ### A match on a straight road -/

/-- A road of three edges, open to all. -/
def straightRoad : Network ℕ Milestone Unit Unit where
  graph := [⟨0, 1, 1, ⟨7, .outgoing⟩⟩, ⟨1, 2, 1, ⟨8, .outgoing⟩⟩, ⟨2, 3, 1, ⟨9, .outgoing⟩⟩]
  graph_unique := by decide
  point node := some ⟨node * 100⟩
  graph_points := by decide
  metadata _ := some ()
  accessible _ _ _ := true

/-- The edges of the straight road that a point lies on. -/
def edgesNear (point : Milestone) : List (Milestone × Edge ℕ) :=
  (straightRoad.graph.filter fun e =>
    decide ((e.source * 100 : ℤ) ≤ point.metres) && decide (point.metres ≤ e.target * 100)).map
      fun e => (point, e)

/-- The library's strategies, with the costs in round figures. -/
def roadMatcher (map : Network ℕ Milestone Unit Unit) : Matcher ℕ Milestone Unit Unit where
  map := map
  heuristics := ⟨fun context => context.weight,
    defaultTransitionCost fun path _ _ _ _ _ _ _ => path.length⟩
  generator := standardGenerator (fun point _ => edgesNear point) 50 fun context => context.weight
  weigher := Weigher.allCompute listHeap 200000
  runtime := ()

/-- Three observations along the road. -/
def roadTrip : Trip ℕ Milestone :=
  ((roadMatcher straightRoad).extend Trip.new [⟨⟨30⟩, 0⟩, ⟨⟨60⟩, 1⟩, ⟨⟨250⟩, 2⟩]).2

/-- An observation off the road, a solve and a cut. -/
theorem trip_invariant_road :
    (((roadMatcher straightRoad).solve
      ((roadMatcher straightRoad).push roadTrip ⟨⟨900⟩, 3⟩).2).2.tail 2).WellFormed :=
  (trip_invariant (.tail 2 (.solve (.push _ (.extend _ .new rfl) rfl) rfl)
    : Trip.Reached (· = roadMatcher straightRoad) _)).1

end Routers
