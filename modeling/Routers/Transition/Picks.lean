import Routers.Transition.Continuation
import Routers.Transition.Snapshot
import Routers.Trellis.Cut

/-!
# What a solved trip picks

A trip cut at its convergence layer goes on without the layers before it.  What those had
picked stands; what the cut trip picks behind its first layer is what the uncut one picks,
as soon as the two agree at that layer, for nothing but the number of a candidate then
tells their solutions apart.

## Main definitions

* `CollapsedPath.picked` — the candidate picked at a layer, but for its place.
* `Matcher.Solution` — a trip of one matcher, with what solving it gave.

## Main results

* `Matcher.Solution.hopGeometry_congr` — the same picks are joined by the same geometry.
* `Matcher.picked_frontier` — **the picks through the convergence layer stand.**
* `Matcher.picked_cut` — **a cut trip picks on as the uncut one does.**

## References

`src/libs/routers_transition/src/candidate/collapse.rs` and
`src/libs/routers_transition/src/matcher/entity.rs`.
-/

namespace Routers

open Trellis (nodeAt)

variable {E P M R : Type}

/-- The candidate picked at a layer, but for its place. -/
def CollapsedPath.picked (collapsed : CollapsedPath E P) (k : ℕ) : Option (Edge E × P × ℕ) :=
  (collapsed.route[k]?.bind collapsed.candidates.candidate).map Candidate.anchor

namespace Matcher

variable [DecidableEq E] [Inhabited E] [Geometry P]

/-! ### Candidates that nothing tells apart -/

/-- A node weighs what its candidate emits, up to the bound of weights. -/
theorem getElem?_nodeRow_weighed {m : Matcher E P M R} {trip : Trip E P} (hinv : trip.Inv)
    {t : Trellis} (ht : trip.trellis = some t) {L a : ℕ} {c : Candidate E P}
    (hc : trip.candidates.candidate ⟨L, a⟩ = some c) :
    ((m.weighed trip t).nodeRow L)[a]? = some (min c.emission maxWeight) := by
  rw [CandidateStore.candidate_eq] at hc
  obtain ⟨layer, hlayer, hca⟩ := Option.bind_eq_some_iff.mp hc
  have hrow : (m.weighed trip t).nodeRow L = Trip.emissions layer :=
    (hinv.mirrors t ht).nodeRow_eq L layer hlayer
  rw [hrow, Trip.emissions, List.getElem?_map, hca, Option.map_some]

/-- Candidates of a layer that differ in their place only are weighed alike. -/
theorem getElem?_weighBoundary_congr {m : Matcher E P M R} (hdet : m.Deterministic)
    {trip : Trip E P} (hinv : trip.Inv) {L a b : ℕ} {c d : Candidate E P}
    {toLayer : List (Candidate E P)} (hto : trip.candidates.layer (L + 1) = some toLayer)
    (hc : trip.candidates.candidate ⟨L, a⟩ = some c)
    (hd : trip.candidates.candidate ⟨L, b⟩ = some d) (hanchor : c.anchor = d.anchor) {j : ℕ}
    (hj : j < toLayer.length) :
    (m.weigher.weighBoundary m.heuristics (m.context trip) L)[a * toLayer.length + j]?
      = (m.weigher.weighBoundary m.heuristics (m.context trip) L)[b * toLayer.length + j]? := by
  rw [CandidateStore.candidate_eq] at hc hd
  obtain ⟨fromLayer, hfrom, hca⟩ := Option.bind_eq_some_iff.mp hc
  obtain ⟨fromLayer', hfrom', hdb⟩ := Option.bind_eq_some_iff.mp hd
  rw [hfrom] at hfrom'
  cases hfrom'
  have hplaced : ∀ candidate ∈ toLayer,
      trip.candidates.candidate candidate.location = some candidate := fun candidate hmem =>
    hinv.placed.candidate_location hto hmem
  have hsource : m.weigher.weighSource m.heuristics (m.context trip) toLayer c
      = m.weigher.weighSource m.heuristics (m.context trip) toLayer d :=
    Weigher.weighSource_congr hdet.weigher hdet.heuristics
      (hinv.placed.candidate_location hfrom (List.mem_of_getElem? hca))
      (hinv.placed.candidate_location hfrom (List.mem_of_getElem? hdb)) hplaced hplaced hanchor rfl
  have hmatrix := (Weigher.getElem?_weighBoundary m.weigher m.heuristics (m.context trip) hfrom
    hto).2
  rw [hmatrix a j hj, hmatrix b j hj]
  dsimp only at hca hdb
  rw [hca, hdb, Option.bind_some, Option.bind_some, hsource]

/-- Candidates of a layer that differ in their place only are twins. -/
theorem twins_of_anchor {m : Matcher E P M R} (hdet : m.Deterministic) {trip : Trip E P}
    (hinv : trip.Inv) (h : m.Coherent trip) {t : Trellis} (ht : trip.trellis = some t)
    {L a b : ℕ} {c d : Candidate E P} (hc : trip.candidates.candidate ⟨L, a⟩ = some c)
    (hd : trip.candidates.candidate ⟨L, b⟩ = some d) (hanchor : c.anchor = d.anchor) :
    ((m.weighed trip t).graph.drop L).Twins a b := by
  have hmirrors := hinv.mirrors t ht
  constructor
  · -- they emit the same
    have hemission : c.emission = d.emission := congrArg (fun anchor => anchor.2.2) hanchor
    show ((m.weighed trip t).nodeRow L).getD a 0 = ((m.weighed trip t).nodeRow L).getD b 0
    rw [List.getD_eq_getElem?_getD, List.getD_eq_getElem?_getD, getElem?_nodeRow_weighed hinv ht hc,
      getElem?_nodeRow_weighed hinv ht hd, hemission]
  · -- and their rows are the same
    intro j hj
    show (m.weighed trip t).edgeWeight L a j = (m.weighed trip t).edgeWeight L b j
    have hj' : j < (m.weighed trip t).width (L + 1) := hj
    have hlt : L + 1 < (m.weighed trip t).layers := by
      by_contra hge
      rw [Trellis.width, List.getD_eq_default _ _ (not_lt.mp hge)] at hj'
      exact absurd hj' (Nat.not_lt_zero j)
    have hlt' : L + 1 < t.layers := hlt
    have hlen := hmirrors.valid.transitions_length
    obtain ⟨toLayer, hto⟩ : ∃ toLayer, trip.candidates.layer (L + 1) = some toLayer :=
      ⟨_, List.getElem?_eq_getElem (by rwa [hmirrors.layers_eq])⟩
    have hwidth : toLayer.length = (m.weighed trip t).width (L + 1) :=
      (hinv.wellFormed.width_eq t ht (L + 1) _ hto).1
    have hentry := getElem?_weighBoundary_congr hdet hinv hto hc hd hanchor (j := j)
      (by rwa [hwidth])
    rw [hwidth] at hentry
    rw [Trellis.edgeWeight, Trellis.edgeWeight, List.getD_eq_getElem?_getD,
      getElem?_weighed h ht (by omega), Option.getD_some, Weigher.bridged]
    split
    · rfl
    · simp only [Transition.weights, Option.map_some, Option.getD_some,
        List.getD_eq_getElem?_getD, List.getElem?_map, hentry]

/-- A node of a layer is the same candidate wherever its origin is the layer's. -/
theorem Coherent.candidate_anchor {m : Matcher E P M R} {trip trip' : Trip E P}
    (h : m.Coherent trip) (h' : m.Coherent trip') {l l' : ℕ}
    (horigin : trip.origins[l]? = trip'.origins[l']?) (node : ℕ) :
    (trip.candidates.candidate ⟨l, node⟩).map Candidate.anchor
      = (trip'.candidates.candidate ⟨l', node⟩).map Candidate.anchor := by
  have hlook : ∀ (store : CandidateStore E P) (l : ℕ),
      (store.candidate ⟨l, node⟩).map Candidate.anchor
        = ((store.layer l).map (List.map Candidate.anchor)).bind fun layer => layer[node]? := by
    intro store l
    rw [CandidateStore.candidate_eq]
    cases store.layer l with
    | none => rfl
    | some layer => simp
  rw [hlook, hlook, h.anchor_eq h' horigin]

/-- Candidates of a layer on one edge at one position differ in their place only. -/
theorem Coherent.anchor_of_priced {m : Matcher E P M R} (hpriced : m.generator.Priced)
    {trip : Trip E P} (h : m.Coherent trip) {l a b : ℕ} {c d : Candidate E P}
    (hc : trip.candidates.candidate ⟨l, a⟩ = some c)
    (hd : trip.candidates.candidate ⟨l, b⟩ = some d) (hedge : c.edge = d.edge)
    (hposition : c.position = d.position) : c.anchor = d.anchor := by
  rw [CandidateStore.candidate_eq] at hc hd
  obtain ⟨layer, hlayer, hca⟩ := Option.bind_eq_some_iff.mp hc
  obtain ⟨layer', hlayer', hdb⟩ := Option.bind_eq_some_iff.mp hd
  rw [hlayer] at hlayer'
  cases hlayer'
  have hanchors := h.anchors l
  rw [hlayer, Option.map_some] at hanchors
  obtain ⟨origin, -, horigin⟩ := Option.map_eq_some_iff.mp hanchors.symm
  have hfound : ∀ x ∈ layer, ∃ y ∈ m.generator.candidates origin.point 0, y.anchor = x.anchor := by
    intro x hx
    have hmem := List.mem_map_of_mem (f := Candidate.anchor) hx
    rw [← horigin] at hmem
    exact List.mem_map.mp hmem
  obtain ⟨c', hc', hcc⟩ := hfound c (List.mem_of_getElem? hca)
  obtain ⟨d', hd', hdd⟩ := hfound d (List.mem_of_getElem? hdb)
  simp only [Candidate.anchor, Prod.mk.injEq] at hcc hdd ⊢
  refine ⟨hedge, hposition, ?_⟩
  rw [← hcc.2.2, ← hdd.2.2]
  exact hpriced origin.point 0 c' hc' d' hd' (by rw [hcc.1, hdd.1, hedge])
    (by rw [hcc.2.1, hdd.2.1, hposition])

/-! ### Solutions -/

/-- A trip in the hands of one matcher, with what solving it has given. -/
structure Solution (m : Matcher E P M R) (trip : Trip E P) (t : Trellis) (path : Path)
    (collapsed : CollapsedPath E P) : Prop where
  inv : trip.Inv
  coherent : m.Coherent trip
  trellis_eq : trip.trellis = some t
  solves : ViterbiSolver.solve (m.weighed trip t) = .ok path
  collapsed_eq : collapsed = ⟨path.cost, routeOf path, m.hops trip path, trip.candidates⟩

namespace Solution

variable {m : Matcher E P M R} {trip trip' : Trip E P} {t t' : Trellis} {path path' : Path}
  {collapsed collapsed' : CollapsedPath E P}

theorem length_nodes (s : m.Solution trip t path collapsed) :
    path.nodes.length = trip.origins.length :=
  (candidate_of_solve s.inv s.trellis_eq s.solves).1

theorem valid (s : m.Solution trip t path collapsed) : (m.weighed trip t).Valid :=
  m.weighed_valid s.inv s.trellis_eq

theorem layers_eq (s : m.Solution trip t path collapsed) :
    (m.weighed trip t).layers = trip.origins.length :=
  s.inv.wellFormed.layers_eq t s.trellis_eq

/-- The candidate behind a ref of the route. -/
theorem candidate (s : m.Solution trip t path collapsed) {k : ℕ} (hk : k < trip.origins.length) :
    ∃ c, collapsed.route[k]? = some ⟨k, nodeAt path.nodes k⟩ ∧
      trip.candidates.candidate ⟨k, nodeAt path.nodes k⟩ = some c ∧
      collapsed.candidates.candidate ⟨k, nodeAt path.nodes k⟩ = some c ∧
      collapsed.picked k = some c.anchor := by
  rw [← s.length_nodes] at hk
  obtain ⟨c, hc⟩ := (candidate_of_solve s.inv s.trellis_eq s.solves).2 k hk
  have hroute : collapsed.route[k]? = some ⟨k, nodeAt path.nodes k⟩ := by
    rw [s.collapsed_eq]
    exact getElem?_routeOf path hk
  have hc' : collapsed.candidates.candidate ⟨k, nodeAt path.nodes k⟩ = some c := by
    rw [s.collapsed_eq]
    exact hc
  refine ⟨c, hroute, hc, hc', ?_⟩
  rw [CollapsedPath.picked, hroute, Option.bind_some, hc', Option.map_some]

/-- The same node of the layers of one origin is the same pick. -/
theorem picked_congr (s : m.Solution trip t path collapsed)
    (s' : m.Solution trip' t' path' collapsed') {k k' : ℕ} (hk : k < trip.origins.length)
    (horigin : trip.origins[k]? = trip'.origins[k']?)
    (hnode : nodeAt path.nodes k = nodeAt path'.nodes k') :
    collapsed.picked k = collapsed'.picked k' := by
  have hk' : k' < trip'.origins.length := by
    rw [List.getElem?_eq_getElem hk] at horigin
    exact (List.getElem?_eq_some_iff.mp horigin.symm).1
  obtain ⟨c, -, hc, -, hpicked⟩ := s.candidate hk
  obtain ⟨d, -, hd, -, hpicked'⟩ := s'.candidate hk'
  have hsame := s.coherent.candidate_anchor s'.coherent horigin (nodeAt path.nodes k)
  rw [hc, hnode, hd] at hsame
  rw [hpicked, hpicked']
  exact hsame

/-- Of a trip that has been with one matcher, no hop is dropped. -/
theorem hop (s : m.Solution trip t path collapsed) {k : ℕ} (hk : k + 1 < trip.origins.length) :
    ∃ reachable, collapsed.interpolated[k]? = some reachable ∧
      m.weigher.reach (m.context trip) ⟨k, nodeAt path.nodes k⟩ ⟨k + 1, nodeAt path.nodes (k + 1)⟩
        = some reachable := by
  have hbridged : ∀ k, k + 1 < path.nodes.length → m.BridgedAt trip path k := fun k hk =>
    bridgedAt_of_weights s.inv s.trellis_eq s.solves
      (fun weights hw => s.coherent.resolved t s.trellis_eq k weights hw) hk
  rw [← s.length_nodes] at hk
  obtain ⟨reachable, hreach⟩ :=
    Option.isSome_iff_exists.mp (Expansion.isSome_reach_iff.mpr (hbridged k hk))
  refine ⟨reachable, ?_, hreach⟩
  rw [s.collapsed_eq, getElem?_hops hbridged, if_pos hk]
  exact hreach

/-- **The same picks are joined by the same geometry**, in whichever layers they are. -/
theorem hopGeometry_congr [DecidableEq P] (s : m.Solution trip t path collapsed)
    (s' : m.Solution trip' t' path' collapsed') {k k' : ℕ} (hk : k + 1 < trip.origins.length)
    (hk' : k' + 1 < trip'.origins.length) (hfrom : collapsed.picked k = collapsed'.picked k')
    (hto : collapsed.picked (k + 1) = collapsed'.picked (k' + 1)) :
    collapsed.hopGeometry k m.map = collapsed'.hopGeometry k' m.map := by
  obtain ⟨c, -, hc, hc', hpc⟩ := s.candidate (show k < trip.origins.length by omega)
  obtain ⟨d, -, hd, hd', hpd⟩ := s'.candidate (show k' < trip'.origins.length by omega)
  obtain ⟨e, -, he, he', hpe⟩ := s.candidate hk
  obtain ⟨f, -, hf, hf', hpf⟩ := s'.candidate hk'
  rw [hpc, hpd, Option.some_inj] at hfrom
  rw [hpe, hpf, Option.some_inj] at hto
  obtain ⟨reachable, hhop, hreach⟩ := s.hop hk
  obtain ⟨reachable', hhop', hreach'⟩ := s'.hop hk'
  rcases Weigher.reach_congr m.weigher m.map m.runtime hc hd he hf hfrom hto with
    ⟨hnone, -⟩ | ⟨route, method, hsome, hsome'⟩
  · rw [context, hnone] at hreach
    cases hreach
  · rw [context, hsome, Option.some_inj] at hreach
    rw [context, hsome', Option.some_inj] at hreach'
    subst hreach hreach'
    have hexit : c.edge = d.edge := congrArg Prod.fst hfrom
    have hentry : e.edge = f.edge := congrArg Prod.fst hto
    unfold CollapsedPath.hopGeometry
    rw [hhop, hhop']
    simp only [hc', hd', he', hf', Option.map_some, hexit, hentry]
    rfl

end Solution

/-! ### Cutting a trip -/

variable [Inhabited P]

/-- A snapshot of a trip that one matcher has led to is a solution. -/
theorem solution_of_snapshot {m : Matcher E P M R} (hdet : m.Deterministic) {trip after : Trip E P}
    (h : Trip.Reached (· = m) trip) {collapsed : CollapsedPath E P}
    (hsnapshot : m.snapshot trip = (.ok collapsed, after)) :
    ∃ t path, m.Solution trip t path collapsed ∧ after = (m.solve trip).2 := by
  obtain ⟨path, hsolve, hcollapsed, hafter⟩ := snapshot_ok h.inv hsnapshot
  obtain ⟨t, ht, hweighed⟩ := solve_ok h.inv hsolve
  exact ⟨t, path, ⟨h.inv, h.coherent hdet, ht, hweighed, hcollapsed⟩, hafter⟩

/-- What a trip goes on with behind its convergence layer. -/
def cutBehind (trip : Trip E P) : Trip E P :=
  match convergence trip with
  | .ok (some layer) => trip.tail (trip.layers - layer)
  | _ => trip

theorem reached_cutBehind {allowed : Matcher E P M R → Prop} {trip : Trip E P}
    (h : Trip.Reached allowed trip) : Trip.Reached allowed (cutBehind trip) := by
  unfold cutBehind
  split
  · exact .tail _ h
  · exact h

omit [DecidableEq E] [Inhabited E] [Geometry P] [Inhabited P] in
/-- What a trip goes on with are the last of its observations. -/
theorem origins_cutBehind (trip : Trip E P) :
    (cutBehind trip).origins = trip.origins.drop (trip.layers - (cutBehind trip).layers) := by
  unfold cutBehind
  split
  · rw [Trip.layers, Trip.layers, Trip.origins_tail, List.length_drop]
    congr 1
    omega
  · rw [Nat.sub_self, List.drop_zero]

section Cut

variable {m : Matcher E P M R} (hdet : m.Deterministic) {trip solved : Trip E P}
  (h : Trip.Reached (· = m) trip) {first : CollapsedPath E P}
  (hfirst : m.snapshot trip = (.ok first, solved)) (fresh : List (Origin P))
include hdet h hfirst

omit hdet in
theorem reached_solved : Trip.Reached (· = m) solved ∧ solved.origins = trip.origins := by
  have hsolved : solved = (m.solve trip).2 := by rw [← snapshot_trip, hfirst]
  rw [hsolved]
  exact ⟨.solve h rfl, (m.solve_frame h.inv).1⟩

/-- The convergence layer is that of the solution itself. -/
theorem convergence_spec {c : ℕ} (hc : convergence solved = .ok (some c)) :
    ∃ t path, m.Solution trip t path first ∧ c < trip.origins.length ∧
      ViterbiSolver.FusedAt (m.weighed trip t) c := by
  obtain ⟨t, path, s, -⟩ := solution_of_snapshot hdet h hfirst
  obtain ⟨hreached, horigins⟩ := reached_solved h hfirst
  unfold convergence at hc
  cases hu : solved.trellis with
  | none =>
    rw [hu] at hc
    cases hc
  | some u =>
    rw [hu] at hc
    dsimp only at hc
    cases hquery : ViterbiSolver.convergence u with
    | error e =>
      rw [hquery] at hc
      cases hc
    | ok o =>
      rw [hquery] at hc
      cases hc
      have hvalid := (hreached.inv.mirrors u hu).valid
      obtain ⟨hr, -, hlt, hfused, -⟩ := (ViterbiSolver.convergence_ok_iff hvalid).mp hquery
      have hweighed : m.weighed solved u = m.weighed trip t :=
        weighed_eq_of_origins hdet hreached.inv h.inv (hreached.coherent hdet) s.coherent horigins
          hu s.trellis_eq
      have hsame : m.weighed trip t = u := by
        rw [← hweighed, weighed_of_fullyResolved hr]
      refine ⟨t, path, s, ?_, hsame ▸ hfused⟩
      rw [← s.layers_eq, hsame]
      exact hlt

/-- **The picks through the convergence layer stand**, whatever is pushed behind it. -/
theorem picked_frontier {c : ℕ} (hc : convergence solved = .ok (some c))
    {whole : CollapsedPath E P} {after : Trip E P}
    (hwhole : m.snapshot (m.pushAll solved fresh) = (.ok whole, after)) {k : ℕ} (hk : k ≤ c) :
    first.picked k = whole.picked k := by
  obtain ⟨t, path, s, hlt, c', hfused⟩ := convergence_spec hdet h hfirst hc
  obtain ⟨hreached, horigins⟩ := reached_solved h hfirst
  obtain ⟨hgrown, hgrownOrigins⟩ := m.pushAll_spec hdet.generator fresh hreached
  obtain ⟨t', path', s', -⟩ := solution_of_snapshot hdet hgrown hwhole
  have hlayers := s.layers_eq
  have hlayers' := s'.layers_eq
  have hlen : (m.pushAll solved fresh).origins.length
      = trip.origins.length + (fresh.filter m.anchors).length := by
    rw [hgrownOrigins, List.length_append, horigins]
  have horigin : ∀ k < trip.origins.length,
      trip.origins[k]? = (m.pushAll solved fresh).origins[k]? := by
    intro k hk
    rw [hgrownOrigins, horigins, List.getElem?_append_left hk]
  have hmatches : Trellis.Matches 0 (m.weighed trip t).layers (m.weighed trip t)
      (m.weighed (m.pushAll solved fresh) t') :=
    weighed_matches hdet s.inv s'.inv s.coherent s'.coherent s.trellis_eq s'.trellis_eq le_rfl
      (by
        show 0 + (m.weighed trip t).layers ≤ (m.weighed (m.pushAll solved fresh) t').layers
        omega)
      fun k hk => by
        rw [Nat.zero_add]
        exact horigin k (hlayers ▸ hk)
  obtain ⟨-, f, hf, hpath⟩ := ViterbiSolver.solve_ok s.valid s.solves
  obtain ⟨hr', f', hf', hpath'⟩ := ViterbiSolver.solve_ok s'.valid s'.solves
  have htake := ViterbiSolver.route_take_eq s.valid s'.valid hmatches hr' (hlayers ▸ hlt) hfused hf
    hf'
  have hnode : nodeAt path.nodes k = nodeAt path'.nodes k := by
    have hget := congrArg (fun l => l.getD k 0) htake
    simp only [List.getD_eq_getElem?_getD, List.getElem?_take, show k < c + 1 by omega,
      if_true] at hget
    rw [hpath, hpath']
    simpa only [nodeAt, List.getD_eq_getElem?_getD] using hget.symm
  exact s.picked_congr s' (by omega) (horigin k (by omega)) hnode

/-- A trip that is cut has the observations from its convergence layer on. -/
theorem origins_pushAll_cutBehind {c : ℕ} (hc : convergence solved = .ok (some c))
    (hlt : c < trip.origins.length) :
    (m.pushAll (cutBehind solved) fresh).origins = (m.pushAll solved fresh).origins.drop c := by
  obtain ⟨hreached, horigins⟩ := reached_solved h hfirst
  have hcutOrigins : (cutBehind solved).origins = solved.origins.drop c := by
    rw [cutBehind, hc]
    dsimp only
    rw [Trip.origins_tail, Trip.layers, horigins]
    congr 1
    omega
  rw [(m.pushAll_spec hdet.generator fresh hreached).2,
    (m.pushAll_spec hdet.generator fresh (reached_cutBehind hreached)).2, hcutOrigins,
    List.drop_append_of_le_length]
  rw [horigins]
  exact hlt.le

/-- **A cut trip picks on as the uncut one does**, once it picks an edge and a position of its first
layer as the uncut one does. -/
theorem picked_cut (hpriced : m.generator.Priced) {c : ℕ}
    (hc : convergence solved = .ok (some c)) {whole second : CollapsedPath E P}
    {after after' : Trip E P}
    (hwhole : m.snapshot (m.pushAll solved fresh) = (.ok whole, after))
    (hsecond : m.snapshot (m.pushAll (cutBehind solved) fresh) = (.ok second, after'))
    (halike : (second.picked 0).map (fun anchor => (anchor.1, anchor.2.1))
      = (whole.picked c).map fun anchor => (anchor.1, anchor.2.1)) :
    (m.pushAll (cutBehind solved) fresh).origins = (m.pushAll solved fresh).origins.drop c ∧
      ∀ k, c + k < (m.pushAll solved fresh).origins.length →
        second.picked k = whole.picked (c + k) := by
  obtain ⟨t, path, s, hlt, -⟩ := convergence_spec hdet h hfirst hc
  obtain ⟨hreached, horigins⟩ := reached_solved h hfirst
  have hgrown := (m.pushAll_spec hdet.generator fresh hreached).1
  have hleft := (m.pushAll_spec hdet.generator fresh (reached_cutBehind hreached)).1
  obtain ⟨u, q, s', -⟩ := solution_of_snapshot hdet hgrown hwhole
  obtain ⟨v, r, s'', -⟩ := solution_of_snapshot hdet hleft hsecond
  have hdrop := origins_pushAll_cutBehind hdet h hfirst fresh hc hlt
  refine ⟨hdrop, fun k hk => ?_⟩
  have horigin : ∀ k, (m.pushAll (cutBehind solved) fresh).origins[k]?
      = (m.pushAll solved fresh).origins[c + k]? := by
    intro k
    rw [hdrop, List.getElem?_drop]
  have hlenCut : (m.pushAll (cutBehind solved) fresh).origins.length
      = (m.pushAll solved fresh).origins.length - c := by
    rw [hdrop, List.length_drop]
  -- the candidates picked at the cut's first layer differ in their place only
  obtain ⟨x, -, hx, -, hpx⟩ := s''.candidate (show 0 < _ by omega)
  obtain ⟨y, -, hy, -, hpy⟩ := s'.candidate (show c < _ by omega)
  have hsame := s''.coherent.candidate_anchor s'.coherent (horigin 0) (nodeAt r.nodes 0)
  rw [hx, Option.map_some] at hsame
  obtain ⟨x', hx', hxx⟩ := Option.map_eq_some_iff.mp hsame.symm
  rw [hpx, hpy, Option.map_some, Option.map_some, Option.some_inj, Prod.mk.injEq, ← hxx] at halike
  have hanchor := s'.coherent.anchor_of_priced hpriced hx' hy halike.1 halike.2
  cases k with
  | zero => rw [Nat.add_zero, hpx, hpy, ← hxx, hanchor]
  | succ k =>
    -- so nothing tells the solutions behind it apart
    have hlayers := s'.layers_eq
    have hlayers' := s''.layers_eq
    have hmatches : Trellis.Matches c (m.weighed (m.pushAll (cutBehind solved) fresh) v).layers
        (m.weighed (m.pushAll (cutBehind solved) fresh) v)
        (m.weighed (m.pushAll solved fresh) u) :=
      weighed_matches hdet s''.inv s'.inv s''.coherent s'.coherent s''.trellis_eq s'.trellis_eq
        le_rfl
        (by
          show c + (m.weighed (m.pushAll (cutBehind solved) fresh) v).layers
            ≤ (m.weighed (m.pushAll solved fresh) u).layers
          omega)
        fun k _ => horigin k
    have htwins := twins_of_anchor hdet s'.inv s'.coherent s'.trellis_eq hx' hy hanchor
    have hnode := cut_solution_of_twins s''.valid s'.valid ⟨hmatches, by omega⟩ s'.solves
      s''.solves htwins (Nat.succ_pos k) (by omega)
    exact s''.picked_congr s' (by omega) (horigin (k + 1)) hnode

end Cut

end Matcher

end Routers
