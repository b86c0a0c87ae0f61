import Routers.Transition.Streaming
import Mathlib.Data.List.Destutter

/-!
# Snapshots

A collapsed path names the chosen candidate of each layer and one hop for each two of them
in a row.  The hops are derived anew, from the network at hand; one that cannot be is
dropped, and everything behind it moves up.  Who renders the path pairs hops with layers
by index.

## Main definitions

* `CollapsedPath.Aligned` — one hop a boundary, between the candidates on its two sides.
* `Matcher.CarriesBridged` — where the solution crosses a boundary resolved before, the
  network at hand has a way.

## Main results

* `Matcher.aligned_iff` — **hops are aligned exactly when none is dropped.**
* `Matcher.bridged_of_pending` — a boundary weighed by the solve itself is crossed by a hop.
* `snapshot_aligned_iff` — **when a snapshot is aligned.**

## References

`src/libs/routers_transition/src/candidate/collapse.rs` and
`src/libs/routers_transition/src/matcher/entity.rs`.
-/

namespace Routers

namespace CollapsedPath

variable {E P M R : Type}

/-- The chosen candidates, one a layer; a ref without a candidate is skipped. -/
def matched (collapsed : CollapsedPath E P) : List (Candidate E P) :=
  collapsed.route.filterMap collapsed.candidates.candidate

/-- The road geometry driven across a hop, exclusive of both matched positions: the exit of
the one edge, the nodes between and the entry of the other, without repetitions. -/
def hopGeometry [DecidableEq P] (collapsed : CollapsedPath E P) (hop : ℕ) (map : Network E P M R) :
    List P :=
  match collapsed.interpolated[hop]? with
  | none => []
  | some reachable =>
    match reachable.resolutionMethod with
    | .distanceOnly => []
    | .standard =>
      let exit := (collapsed.candidates.candidate reachable.source).map fun c => c.edge.target
      let entry := (collapsed.candidates.candidate reachable.target).map fun c => c.edge.source
      ((exit.toList ++ reachable.pathNodes ++ entry.toList).filterMap map.point).destutter (· ≠ ·)

/-- The full driven path: the matched positions, the geometry of each hop filled in before the one
it leads to. -/
def interpolatedLine [DecidableEq P] (collapsed : CollapsedPath E P) (map : Network E P M R) :
    List P :=
  collapsed.matched.head?.toList.map Candidate.position ++
    (collapsed.matched.zipIdx.drop 1).flatMap fun (target, index) =>
      collapsed.hopGeometry (index - 1) map ++ [target.position]

/-- One hop a boundary: from the candidate on its one side to that on the other, along a
chain of edges of the network unless on a shared edge, and read by index next to these
very candidates. -/
structure Aligned [DecidableEq E] (map : Network E P M R) (collapsed : CollapsedPath E P) :
    Prop where
  length_eq : collapsed.interpolated.length + 1 = collapsed.route.length
  source_eq : ∀ (i : ℕ) (reachable : Reachable E), collapsed.interpolated[i]? = some reachable →
    collapsed.route[i]? = some reachable.source
  target_eq : ∀ (i : ℕ) (reachable : Reachable E), collapsed.interpolated[i]? = some reachable →
    collapsed.route[i + 1]? = some reachable.target
  contiguous : ∀ reachable ∈ collapsed.interpolated, reachable.resolutionMethod = .standard →
    ∃ source target, collapsed.candidates.candidate reachable.source = some source ∧
      collapsed.candidates.candidate reachable.target = some target ∧
        Contiguous map source.edge.target reachable.path target.edge.source
  matched_eq : ∀ i : ℕ, collapsed.matched[i]? = (collapsed.route[i]?).bind
    collapsed.candidates.candidate

/-- What is rendered of an aligned hop lies between the candidates of its two layers. -/
theorem Aligned.hopGeometry_eq [DecidableEq E] [DecidableEq P] {map : Network E P M R}
    {collapsed : CollapsedPath E P} (h : collapsed.Aligned map) {i : ℕ} {reachable : Reachable E}
    (hi : collapsed.interpolated[i]? = some reachable)
    (hstandard : reachable.resolutionMethod = .standard) :
    ∃ source target, collapsed.matched[i]? = some source ∧
      collapsed.matched[i + 1]? = some target ∧
      Contiguous map source.edge.target reachable.path target.edge.source ∧
      collapsed.hopGeometry i map
        = ((source.edge.target :: reachable.pathNodes ++ [target.edge.source]).filterMap
            map.point).destutter (· ≠ ·) := by
  obtain ⟨source, target, hsource, htarget, hchain⟩ :=
    h.contiguous reachable (List.mem_of_getElem? hi) hstandard
  refine ⟨source, target, ?_, ?_, hchain, ?_⟩
  · rw [h.matched_eq, h.source_eq i reachable hi]
    exact hsource
  · rw [h.matched_eq, h.target_eq i reachable hi]
    exact htarget
  · unfold hopGeometry
    simp only [hi, hstandard, hsource, htarget]
    rfl

end CollapsedPath

namespace Matcher

variable {E P M R : Type} [DecidableEq E] [Inhabited E] [Geometry P]

/-! ### Hops and the route -/

/-- The hops along a path that can be derived, in order. -/
def hops (m : Matcher E P M R) (trip : Trip E P) (path : Path) : List (Reachable E) :=
  ((routeOf path).zip (routeOf path).tail).filterMap fun hop =>
    m.weigher.reach (m.context trip) hop.1 hop.2

/-- Where the solution crosses from one layer to the next, the network has a way. -/
def BridgedAt (m : Matcher E P M R) (trip : Trip E P) (path : Path) (k : ℕ) : Prop :=
  Expansion.Bridged m.weigher.heap m.weigher.reachDistance (m.context trip)
    ⟨k, Trellis.nodeAt path.nodes k⟩ ⟨k + 1, Trellis.nodeAt path.nodes (k + 1)⟩

/-- Where the solution crosses a boundary that was resolved before, the network at hand has
a way. -/
def CarriesBridged (m : Matcher E P M R) (trip : Trip E P) (path : Path) : Prop :=
  ∀ t, trip.trellis = some t → ∀ (k : ℕ) (weights : List ℕ),
    t.transitions[k]? = some (Transition.resolved weights) → m.BridgedAt trip path k

theorem getElem?_routeOf (path : Path) {k : ℕ} (hk : k < path.nodes.length) :
    (routeOf path)[k]? = some ⟨k, Trellis.nodeAt path.nodes k⟩ := by
  rw [routeOf, List.getElem?_mapIdx, List.getElem?_eq_getElem hk, Trellis.nodeAt,
    List.getD_eq_getElem _ _ hk]
  rfl

/-- A list none of whose elements is dropped keeps its places. -/
theorem getElem?_filterMap {α β : Type*} {f : α → Option β} {l : List α}
    (h : ∀ a ∈ l, (f a).isSome) (i : ℕ) : (l.filterMap f)[i]? = l[i]?.bind f := by
  induction l generalizing i with
  | nil => rfl
  | cons a l ih =>
    obtain ⟨b, hb⟩ := Option.isSome_iff_exists.mp (h a List.mem_cons_self)
    rw [List.filterMap_cons_some hb]
    cases i with
    | zero => exact hb.symm
    | succ i => exact ih (fun a ha => h a (List.mem_cons_of_mem _ ha)) i

variable {m : Matcher E P M R} {trip : Trip E P}

/-- The pairs of layers in a row, by the first of the two. -/
theorem getElem?_pairs (path : Path) (k : ℕ) :
    ((routeOf path).zip (routeOf path).tail)[k]?
      = if k + 1 < path.nodes.length then
          some (⟨k, Trellis.nodeAt path.nodes k⟩, ⟨k + 1, Trellis.nodeAt path.nodes (k + 1)⟩)
        else none := by
  have hlength : (routeOf path).length = path.nodes.length := List.length_mapIdx
  split
  · rename_i hk
    refine List.getElem?_zip_eq_some.mpr ⟨getElem?_routeOf path (by omega), ?_⟩
    rw [List.getElem?_tail]
    exact getElem?_routeOf path hk
  · rename_i hk
    rw [List.getElem?_eq_none]
    rw [List.length_zip, List.length_tail, hlength]
    omega

/-- No hop is dropped exactly when the network has a way across each. -/
theorem hops_isSome_iff {path : Path} : (∀ hop ∈ (routeOf path).zip (routeOf path).tail,
    (m.weigher.reach (m.context trip) hop.1 hop.2).isSome) ↔
      ∀ k, k + 1 < path.nodes.length → m.BridgedAt trip path k := by
  constructor
  · intro h k hk
    have hget := getElem?_pairs path k
    rw [if_pos hk] at hget
    exact Expansion.isSome_reach_iff.mp (h _ (List.mem_of_getElem? hget))
  · intro h hop hmem
    obtain ⟨k, hk⟩ := List.getElem?_of_mem hmem
    rw [getElem?_pairs] at hk
    split at hk
    · cases hk
      exact Expansion.isSome_reach_iff.mpr (h k ‹_›)
    · cases hk

/-- Where no hop is dropped, each stands where its boundary does. -/
theorem getElem?_hops {path : Path}
    (h : ∀ k, k + 1 < path.nodes.length → m.BridgedAt trip path k) (k : ℕ) :
    (m.hops trip path)[k]? = if k + 1 < path.nodes.length then
        m.weigher.reach (m.context trip) ⟨k, Trellis.nodeAt path.nodes k⟩
          ⟨k + 1, Trellis.nodeAt path.nodes (k + 1)⟩
      else none := by
  rw [hops, getElem?_filterMap (hops_isSome_iff.mpr h), getElem?_pairs]
  split <;> rfl

/-- **Hops are aligned with the route exactly when none is dropped**, that is when the
network has a way from each chosen candidate to the next. -/
theorem aligned_iff {path : Path} (hnodes : path.nodes ≠ [])
    (hcandidates : ∀ r ∈ routeOf path, (trip.candidates.candidate r).isSome) :
    CollapsedPath.Aligned m.map
        ⟨path.cost, routeOf path, m.hops trip path, trip.candidates⟩ ↔
      ∀ k, k + 1 < path.nodes.length → m.BridgedAt trip path k := by
  have hlength : (routeOf path).length = path.nodes.length := List.length_mapIdx
  have hpairs : ((routeOf path).zip (routeOf path).tail).length + 1 = path.nodes.length := by
    have := List.length_pos_iff.mpr hnodes
    rw [List.length_zip, List.length_tail, hlength]
    omega
  constructor
  · intro h
    have hlen := h.length_eq
    simp only [hops, hlength] at hlen
    exact hops_isSome_iff.mp (List.filterMap_length_eq_length.mp (by omega))
  · intro h
    -- nothing is dropped, so every hop stands where its boundary does
    have hhop : ∀ k reachable, (m.hops trip path)[k]? = some reachable →
        k + 1 < path.nodes.length ∧
          m.weigher.reach (m.context trip) ⟨k, Trellis.nodeAt path.nodes k⟩
            ⟨k + 1, Trellis.nodeAt path.nodes (k + 1)⟩ = some reachable := by
      intro k reachable hk
      rw [getElem?_hops h] at hk
      split at hk
      · exact ⟨‹_›, hk⟩
      · cases hk
    refine ⟨?_, fun k reachable hk => ?_, fun k reachable hk => ?_, fun reachable hmem => ?_,
      fun k => getElem?_filterMap hcandidates k⟩
    · simp only [hops, List.filterMap_length_eq_length.mpr (hops_isSome_iff.mpr h), hlength, hpairs]
    · obtain ⟨hlt, hreach⟩ := hhop k reachable hk
      rw [(Expansion.reach_spec hreach).1]
      exact getElem?_routeOf path (by omega)
    · obtain ⟨hlt, hreach⟩ := hhop k reachable hk
      rw [(Expansion.reach_spec hreach).2.1]
      exact getElem?_routeOf path hlt
    · obtain ⟨k, hk⟩ := List.getElem?_of_mem hmem
      obtain ⟨-, hreach⟩ := hhop k reachable hk
      obtain ⟨hsource, htarget, hchain⟩ := Expansion.reach_spec hreach
      intro hstandard
      rw [hsource, htarget]
      exact hchain hstandard

/-! ### Boundaries weighed by the solve -/

/-- A solution is a cheapest path of the weighed trellis, with a node for each layer. -/
theorem cheapest_of_solve (hinv : trip.Inv) {t : Trellis} (ht : trip.trellis = some t)
    {path : Path} (hsolve : ViterbiSolver.solve (m.weighed trip t) = .ok path) :
    (m.weighed trip t).IsCheapest path ∧ path.nodes.length = t.layers := by
  have hcheapest := ViterbiSolver.isCheapest_of_solve (m.weighed_valid hinv ht) hsolve
  exact ⟨hcheapest, hcheapest.isNodePath.length_eq⟩

/-- Where the network at hand gives a boundary the very weights that it has, if it has any,
the solution crosses it where the network has a way. -/
theorem bridgedAt_of_weights (hinv : trip.Inv) {t : Trellis} (ht : trip.trellis = some t)
    {path : Path} (hsolve : ViterbiSolver.solve (m.weighed trip t) = .ok path) {k : ℕ}
    (hold : ∀ weights : List ℕ, t.transitions[k]? = some (Transition.resolved weights) →
      m.weigher.bridged m.heuristics (m.context trip) k .pending = .resolved weights)
    (hk : k + 1 < path.nodes.length) : m.BridgedAt trip path k := by
  have hmirrors := hinv.mirrors t ht
  have hvalid := m.weighed_valid hinv ht
  obtain ⟨hcheapest, hlayers⟩ := cheapest_of_solve hinv ht hsolve
  have hk' : k + 1 < (m.weighed trip t).layers := by rwa [hlayers] at hk
  have hlen := hvalid.transitions_length
  -- the boundary is resolved once weighed, and by weights the network at hand gives it
  obtain ⟨weights, hweights⟩ := (Trellis.fullyResolved_iff _).mp
    (ViterbiSolver.fullyResolved_of_solve hvalid hsolve) k (by omega)
  have hbridged : m.weigher.bridged m.heuristics (m.context trip) k .pending
      = .resolved weights := by
    rcases m.weigher.getElem?_weighedTrellis m.heuristics hweights with hresolved | ⟨-, hbridged⟩
    · exact hold weights hresolved
    · exact hbridged
  -- and the solution takes an edge that is there
  have hsrc := hcheapest.isNodePath.nodeAt_lt (show k < (m.weighed trip t).layers by omega)
  have hdst := hcheapest.isNodePath.nodeAt_lt hk'
  have hget := hvalid.getElem?_weights hweights hsrc hdst
  have hstore : k + 1 < trip.candidates.layers.length := by
    rw [hmirrors.layers_eq]
    exact hk'
  have hfrom : trip.candidates.layer k = some trip.candidates.layers[k] :=
    List.getElem?_eq_getElem (by omega)
  have hto : trip.candidates.layer (k + 1) = some trip.candidates.layers[k + 1] :=
    List.getElem?_eq_getElem hstore
  have hwidth : (trip.candidates.layers[k + 1]).length = (m.weighed trip t).width (k + 1) :=
    (hinv.wellFormed.width_eq t ht (k + 1) _ hto).1
  rw [← hwidth] at hdst hget
  exact Expansion.isSome_reach_iff.mp (m.weigher.reach_of_bridged m.heuristics hinv.placed hfrom
    hto hbridged hdst hget (hcheapest.edgeWeight_lt hvalid hk'))

/-! ### Successful snapshots and matches -/

variable [Inhabited P]

/-- A solve that succeeds has solved the trip's trellis, weighed. -/
theorem solve_ok (hinv : trip.Inv) {path : Path} (h : (m.solve trip).1 = .ok path) :
    ∃ t, trip.trellis = some t ∧ ViterbiSolver.solve (m.weighed trip t) = .ok path := by
  cases ht : trip.trellis with
  | none =>
    have hstate : trip.state = .empty := hinv.wellFormed.empty_iff.mpr (hinv.empty_iff.mp ht)
    rw [m.solve_empty hstate] at h
    cases h
  | some t =>
    refine ⟨t, rfl, ?_⟩
    rw [solve_fst hinv ht] at h
    unfold outcome at h
    split_ifs at h
    cases hsolve : ViterbiSolver.solve (m.weighed trip t) with
    | ok path' =>
      rw [hsolve] at h
      cases h
      rfl
    | error e =>
      rw [hsolve] at h
      cases e <;> cases h

/-- The collapse of a trip that solves. -/
theorem collapse_ok {collapse : Collapse E} {after : Trip E P} (hinv : trip.Inv)
    (h : m.collapse trip = (.ok collapse, after)) : ∃ path, (m.solve trip).1 = .ok path ∧
      collapse = ⟨path.cost, routeOf path, m.hops trip path⟩ ∧ after.candidates = trip.candidates := by
  obtain ⟨-, hcandidates, -⟩ := m.solve_frame hinv
  unfold Matcher.collapse at h
  rcases hsolve : m.solve trip with ⟨r, solved⟩
  rw [hsolve] at h hcandidates
  cases r with
  | error e => cases h
  | ok path =>
    simp only [Prod.mk.injEq, Except.ok.injEq] at h
    obtain ⟨rfl, rfl⟩ := h
    have hcontext : m.context solved = m.context trip := by
      rw [context, hcandidates, context]
    refine ⟨path, rfl, ?_, hcandidates⟩
    rw [hops, hcontext]

/-- The snapshot of a trip that solves. -/
theorem snapshot_ok {collapsed : CollapsedPath E P} {after : Trip E P} (hinv : trip.Inv)
    (h : m.snapshot trip = (.ok collapsed, after)) : ∃ path, (m.solve trip).1 = .ok path ∧
      collapsed = ⟨path.cost, routeOf path, m.hops trip path, trip.candidates⟩ ∧
      after = (m.solve trip).2 := by
  have hafter : after = (m.solve trip).2 := by rw [← snapshot_trip, h]
  unfold Matcher.snapshot at h
  rcases hcollapse : m.collapse trip with ⟨r, solved⟩
  rw [hcollapse] at h
  cases r with
  | error e => cases h
  | ok collapse =>
    obtain ⟨path, hsolve, rfl, hcandidates⟩ := collapse_ok hinv hcollapse
    simp only [Prod.mk.injEq, Except.ok.injEq] at h
    obtain ⟨rfl, -⟩ := h
    exact ⟨path, hsolve, by rw [hcandidates], hafter⟩

omit [Inhabited P] in
/-- A solution has a node for each observation, and a candidate behind it. -/
theorem candidate_of_solve (hinv : trip.Inv) {t : Trellis} (ht : trip.trellis = some t)
    {path : Path} (hsolve : ViterbiSolver.solve (m.weighed trip t) = .ok path) :
    path.nodes.length = trip.origins.length ∧ ∀ k, k < path.nodes.length →
      ∃ c, trip.candidates.candidate ⟨k, Trellis.nodeAt path.nodes k⟩ = some c := by
  have hmirrors := hinv.mirrors t ht
  obtain ⟨hcheapest, hlayers⟩ := cheapest_of_solve hinv ht hsolve
  refine ⟨by rw [hlayers, hinv.wellFormed.layers_eq t ht], fun k hk => ?_⟩
  have hstore : k < trip.candidates.layers.length := by
    rw [hmirrors.layers_eq]
    omega
  have hlayer : trip.candidates.layer k = some trip.candidates.layers[k] :=
    List.getElem?_eq_getElem hstore
  have hwidth := (hinv.wellFormed.width_eq t ht k _ hlayer).1
  have hnode := hcheapest.isNodePath.nodeAt_lt (show k < (m.weighed trip t).layers by
    rwa [hlayers] at hk)
  rw [CandidateStore.candidate_eq, hlayer, Option.bind_some]
  exact ⟨_, List.getElem?_eq_getElem (hnode.trans_eq hwidth.symm)⟩

omit [Inhabited P] in
/-- Every ref of the route is a candidate's. -/
theorem isSome_candidate_routeOf (hinv : trip.Inv) {t : Trellis} (ht : trip.trellis = some t)
    {path : Path} (hsolve : ViterbiSolver.solve (m.weighed trip t) = .ok path) :
    ∀ r ∈ routeOf path, (trip.candidates.candidate r).isSome := by
  intro r hr
  obtain ⟨k, hk⟩ := List.getElem?_of_mem hr
  have hlt : k < path.nodes.length := by
    have := (List.getElem?_eq_some_iff.mp hk).1
    rwa [routeOf, List.length_mapIdx] at this
  rw [getElem?_routeOf path hlt] at hk
  cases hk
  obtain ⟨c, hc⟩ := (candidate_of_solve hinv ht hsolve).2 k hlt
  rw [hc]
  rfl

/-- **A successful collapse** of a trip in order is aligned exactly when the network has a
way wherever the solution crosses a boundary that was resolved before. -/
theorem collapse_aligned_iff (hinv : trip.Inv) {path : Path} (h : (m.solve trip).1 = .ok path) :
    CollapsedPath.Aligned m.map ⟨path.cost, routeOf path, m.hops trip path, trip.candidates⟩ ↔
      m.CarriesBridged trip path := by
  obtain ⟨t, ht, hsolve⟩ := solve_ok hinv h
  have hmirrors := hinv.mirrors t ht
  have hlen := hmirrors.valid.transitions_length
  have hlayers := (hinv.wellFormed.layers_eq t ht)
  have hlength := (candidate_of_solve hinv ht hsolve).1
  have hnodes : path.nodes ≠ [] := by
    have hpos := hmirrors.valid.layers_pos
    rw [← List.length_pos_iff, hlength]
    omega
  rw [aligned_iff hnodes (isSome_candidate_routeOf hinv ht hsolve)]
  constructor
  · intro hall t' ht' k weights hk
    rw [ht] at ht'
    cases ht'
    have hlt := (List.getElem?_eq_some_iff.mp hk).1
    exact hall k (by omega)
  · intro hresolved k hk
    cases htransition : t.transitions[k]? with
    | none =>
      rw [List.getElem?_eq_none_iff] at htransition
      omega
    | some transition =>
      cases transition with
      | resolved weights => exact hresolved t ht k weights htransition
      | pending =>
        refine bridgedAt_of_weights hinv ht hsolve (fun weights hk => ?_) hk
        rw [htransition] at hk
        cases hk

/-! ### Matching in one call -/

omit [DecidableEq E] [Inhabited E] [Geometry P] [Inhabited P] in
/-- A trip extended from nothing has no boundary resolved. -/
theorem pending_extend {origins : List (Origin P)} {after : Trip E P}
    (h : m.extend Trip.new origins = (.ok (), after)) :
    ∀ t, after.trellis = some t → ∀ (k : ℕ) (weights : List ℕ),
      t.transitions[k]? ≠ some (Transition.resolved weights) := by
  rcases m.extend_cases Trip.new origins with ⟨-, points, hreject⟩ | ⟨hne, hpush⟩
  · rw [hreject] at h
    cases h
  · obtain ⟨grown, hgrown, -, hkeep⟩ := pushLayers_spec
      (origins.zip (m.generator.generate (origins.map Origin.point) Trip.new.nextId))
      (Trip.inv_new (E := E) (P := P)) fun p hp => hne p.2 (List.of_mem_zip hp).2
    rw [hpush, hgrown] at h
    cases h
    refine hkeep (fun trip => ∀ t, trip.trellis = some t → ∀ (k : ℕ) (weights : List ℕ),
      t.transitions[k]? ≠ some (Transition.resolved weights)) (fun t ht => by cases ht) ?_
    intro trip origin candidates hinv hpending hmem t ht k weights hk
    obtain ⟨u, hpushed, -, hresolved⟩ := hinv.pushLayer origin (hne _ (List.of_mem_zip hmem).2)
    rw [hpushed] at ht
    cases ht
    obtain ⟨t', ht', hold⟩ := hresolved k weights hk
    exact hpending t' ht' k weights hold

end Matcher

section Main

variable {E P M R : Type} [DecidableEq E] [Inhabited E] [Geometry P] [Inhabited P]

/-- **When a snapshot is aligned.**  A successful snapshot of a trip, by whichever matchers it
has been handled, has one hop a boundary, aligned with the route, exactly when the network
at hand has a way wherever the solution crosses a boundary that was resolved before.  A
trajectory matched in one call has no such boundary, and its hops are always aligned. -/
theorem snapshot_aligned_iff (m : Matcher E P M R) :
    (∀ (allowed : Matcher E P M R → Prop) (trip : Trip E P), Trip.Reached allowed trip →
      ∀ collapsed after, m.snapshot trip = (.ok collapsed, after) →
        (collapsed.Aligned m.map ↔
          ∀ path, (m.solve trip).1 = .ok path → m.CarriesBridged trip path)) ∧
      ∀ linestring collapsed, m.rMatch linestring = .ok collapsed → collapsed.Aligned m.map := by
  refine ⟨fun allowed trip h collapsed after hsnapshot => ?_, fun linestring collapsed hmatch => ?_⟩
  · obtain ⟨path, hsolve, rfl, -⟩ := Matcher.snapshot_ok h.inv hsnapshot
    rw [Matcher.collapse_aligned_iff h.inv hsolve]
    constructor
    · intro hcarries path' hsolve'
      rw [hsolve] at hsolve'
      cases hsolve'
      exact hcarries
    · intro hcarries
      exact hcarries path hsolve
  · unfold Matcher.rMatch at hmatch
    simp only at hmatch
    rcases hextend : m.extend Trip.new (linestring.mapIdx fun index point =>
      (⟨point, index⟩ : Origin P)) with ⟨r, trip⟩
    rw [hextend] at hmatch
    cases r with
    | error e => cases hmatch
    | ok u =>
      have hinv : trip.Inv := by
        have := m.inv_extend Trip.inv_new (linestring.mapIdx fun index point =>
          (⟨point, index⟩ : Origin P))
        rwa [hextend] at this
      rcases hcollapse : m.collapse trip with ⟨r, solved⟩
      simp only [hcollapse] at hmatch
      cases r with
      | error e => cases hmatch
      | ok collapse =>
        obtain ⟨path, hsolve, rfl, hcandidates⟩ := Matcher.collapse_ok hinv hcollapse
        simp only [Except.ok.injEq] at hmatch
        obtain rfl := hmatch
        rw [hcandidates, Matcher.collapse_aligned_iff hinv hsolve]
        intro t ht k weights hk
        exact absurd hk (Matcher.pending_extend hextend t ht k weights)

/-- A trip that has been with one matcher only carries nothing the network has no way for. -/
theorem Trip.Reached.carriesBridged {m : Matcher E P M R} (hdet : m.Deterministic)
    {trip : Trip E P} (h : Trip.Reached (· = m) trip) {path : Path}
    (hsolve : (m.solve trip).1 = .ok path) : m.CarriesBridged trip path := by
  obtain ⟨t, ht, hweighed⟩ := Matcher.solve_ok h.inv hsolve
  have hmirrors := h.inv.mirrors t ht
  have hlayers := (Matcher.cheapest_of_solve h.inv ht hweighed).2
  have hlen := hmirrors.valid.transitions_length
  intro t' ht' k weights hk
  rw [ht] at ht'
  cases ht'
  have hlt := (List.getElem?_eq_some_iff.mp hk).1
  exact Matcher.bridgedAt_of_weights h.inv ht hweighed
    (fun weights hk => (h.coherent hdet).resolved t ht k weights hk) (by omega)

end Main

/-! ### A trip handed to another network -/

/-- The trip along the road, solved. -/
def solvedTrip : Trip ℕ Milestone := ((roadMatcher straightRoad).solve roadTrip).2

/-- On its own network the trip is rendered aligned. -/
theorem snapshot_aligned_iff_road : ∃ collapsed after,
    (roadMatcher straightRoad).snapshot solvedTrip = (.ok collapsed, after) ∧
      collapsed.Aligned straightRoad := by
  have hreached : Trip.Reached (· = roadMatcher straightRoad) solvedTrip :=
    .solve (.extend _ .new rfl) rfl
  have hok : ((roadMatcher straightRoad).snapshot solvedTrip).1.isOk = true := by decide +kernel
  rcases hsnapshot : (roadMatcher straightRoad).snapshot solvedTrip with ⟨r, after⟩
  rw [hsnapshot] at hok
  cases r with
  | error e => cases hok
  | ok collapsed =>
    refine ⟨collapsed, after, rfl, ?_⟩
    rw [← show (roadMatcher straightRoad).map = straightRoad from rfl,
      (snapshot_aligned_iff (roadMatcher straightRoad)).1 _ _ hreached collapsed after hsnapshot]
    intro path hsolve
    exact hreached.carriesBridged (deterministic_roadMatcher straightRoad) hsolve

/-- The straight road with its middle edge missing: the nodes are all there. -/
def brokenRoad : Network ℕ Milestone Unit Unit where
  graph := [⟨0, 1, 1, ⟨7, .outgoing⟩⟩, ⟨2, 3, 1, ⟨9, .outgoing⟩⟩]
  graph_unique := by decide
  point node := some ⟨node * 100⟩
  graph_points := by decide
  metadata _ := some ()
  accessible _ _ _ := true

/-- The hop over the missing edge is dropped. -/
theorem brokenRoad_not_aligned : (roadMatcher brokenRoad).supports solvedTrip = true ∧
    ¬ ∀ collapsed after, (roadMatcher brokenRoad).snapshot solvedTrip = (.ok collapsed, after) →
      collapsed.Aligned brokenRoad := by
  refine ⟨by decide +kernel, fun h => ?_⟩
  have hlengths : ((roadMatcher brokenRoad).snapshot solvedTrip).1.toOption.map
      (fun collapsed => (collapsed.interpolated.length, collapsed.route.length)) = some (1, 3) := by
    decide +kernel
  rcases hsnapshot : (roadMatcher brokenRoad).snapshot solvedTrip with ⟨r, after⟩
  rw [hsnapshot] at hlengths
  cases r with
  | error e => cases hlengths
  | ok collapsed =>
    have haligned := (h collapsed after hsnapshot).length_eq
    simp only [Except.toOption, Option.map_some, Option.some.injEq, Prod.mk.injEq] at hlengths
    omega

end Routers
