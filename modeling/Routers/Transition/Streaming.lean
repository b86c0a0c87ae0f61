import Routers.Transition.Matcher

/-!
# Streaming and batch

A trip grown piece by piece keeps what earlier solves have weighed, renumbers its layers
when it is cut, and reopens its certificates.  As long as neither the generator nor the
weigher looks at where a layer is placed, none of this can be told from the trip: what
it holds for its origins is what a fresh trip would come to hold for them.

## Main definitions

* `Matcher.Deterministic` — the strategies compute the same for the same points and
  candidates, wherever the matcher places them.
* `Matcher.Coherent` — candidates and resolved weights are those of the origins.

## Main results

* `Trip.Reached.coherent` — trips grown by one matcher are coherent.
* `Matcher.solve_eq_of_origins` — **the origins decide what a solve returns.**
* `streaming_eq_batch` — **streaming equals batch.**

## References

`src/libs/routers_transition/src/matcher/entity.rs`.
-/

namespace Routers

variable {E P M R : Type} [DecidableEq E] [Inhabited E] [Geometry P]

namespace Matcher

/-- The strategies of the matcher are deterministic.  Identity is positional and assigned
by the matcher, so their answers are to be the same wherever a layer is placed. -/
structure Deterministic (m : Matcher E P M R) : Prop where
  generator : m.generator.Placeless
  weigher : m.weigher.Placeless
  heuristics : m.heuristics.Placeless

/-- The candidates of a trip are those of its origins, and every resolved boundary holds
the weights of the hops across it. -/
structure Coherent (m : Matcher E P M R) (trip : Trip E P) : Prop where
  anchors : ∀ l, (trip.candidates.layer l).map (List.map Candidate.anchor)
    = trip.origins[l]?.map fun origin => (m.generator.candidates origin.point 0).map Candidate.anchor
  resolved : ∀ t, trip.trellis = some t → ∀ (k : ℕ) (weights : List ℕ),
    t.transitions[k]? = some (Transition.resolved weights) →
      m.weigher.bridged m.heuristics (m.context trip) k .pending = .resolved weights

variable {m : Matcher E P M R} {trip trip' : Trip E P}

/-- What is written at a boundary does not depend on where its layers are placed. -/
theorem bridged_congr (hdet : m.Deterministic) (h : trip.candidates.Placed)
    (h' : trip'.candidates.Placed) {k k' : ℕ}
    (hfrom : (trip.candidates.layer k).map (List.map Candidate.anchor)
      = (trip'.candidates.layer k').map (List.map Candidate.anchor))
    (hto : (trip.candidates.layer (k + 1)).map (List.map Candidate.anchor)
      = (trip'.candidates.layer (k' + 1)).map (List.map Candidate.anchor)) :
    m.weigher.bridged m.heuristics (m.context trip) k .pending
      = m.weigher.bridged m.heuristics (m.context trip') k' .pending := by
  unfold Weigher.bridged context
  rw [Weigher.weighBoundary_congr hdet.weigher hdet.heuristics h h' hfrom hto]

/-! ### Operations keep a trip coherent -/

theorem coherent_new : m.Coherent Trip.new where
  anchors l := rfl
  resolved t h := by cases h

/-- Pushing the candidates of an origin. -/
theorem Coherent.pushLayer (hdet : m.Deterministic) (hinv : trip.Inv) (h : m.Coherent trip)
    (origin : Origin P) {candidates : List (Candidate E P)} (hne : candidates ≠ []) {layer : ℕ}
    (hcandidates : candidates = m.generator.candidates origin.point layer) :
    m.Coherent (trip.pushLayer origin candidates).2 := by
  obtain ⟨t, hpush, hinv', hresolved⟩ := hinv.pushLayer origin hne
  rw [hpush] at hinv' ⊢
  have hlayers := hinv.layers_eq
  have hold : ∀ l, l ≠ trip.origins.length →
      (trip.candidates.pushLayer (Trip.stamp trip.origins.length candidates)).layer l
        = trip.candidates.layer l := by
    intro l hl
    rw [CandidateStore.layer_pushLayer, if_neg (by rw [hlayers]; exact hl)]
  refine ⟨fun l => ?_, fun t' ht' k weights hk => ?_⟩
  · rcases Nat.lt_trichotomy l trip.origins.length with hlt | rfl | hgt
    · rw [hold l hlt.ne, List.getElem?_append_left hlt]
      exact h.anchors l
    · rw [CandidateStore.layer_pushLayer, if_pos hlayers.symm]
      simp only [Option.map_some, Trip.anchor_stamp, List.getElem?_concat_length]
      rw [hcandidates, hdet.generator origin.point layer 0]
    · rw [hold l hgt.ne', List.getElem?_append_right hgt.le]
      have hnone : trip.candidates.layer l = none := List.getElem?_eq_none (by omega)
      rw [hnone, List.getElem?_eq_none (by rw [List.length_singleton]; omega)]
      rfl
  · cases ht'
    obtain ⟨u, hu, huk⟩ := hresolved k weights hk
    rw [← h.resolved u hu k weights huk]
    have hmirrors := hinv.mirrors u hu
    have hlt := (List.getElem?_eq_some_iff.mp huk).1
    have htr := hmirrors.valid.transitions_length
    have hlen := hmirrors.layers_eq
    apply bridged_congr hdet hinv'.placed hinv.placed
    · rw [hold k (by omega)]
    · rw [hold (k + 1) (by omega)]

theorem Coherent.push (hdet : m.Deterministic) (hinv : trip.Inv) (h : m.Coherent trip)
    (origin : Origin P) : m.Coherent (m.push trip origin).2 := by
  rcases m.push_cases trip origin with ⟨-, points, hreject⟩ | ⟨hne, hpush, -⟩
  · rw [hreject]
    exact h
  · rw [hpush]
    exact h.pushLayer hdet hinv origin hne rfl

theorem Coherent.extend (hdet : m.Deterministic) (hinv : trip.Inv) (h : m.Coherent trip)
    (origins : List (Origin P)) : m.Coherent (m.extend trip origins).2 := by
  rcases m.extend_cases trip origins with ⟨-, points, hreject⟩ | ⟨hne, hpush⟩
  · rw [hreject]
    exact h
  · obtain ⟨after, hafter, -, hkeep⟩ := pushLayers_spec
      (origins.zip (m.generator.generate (origins.map Origin.point) trip.nextId)) hinv
      fun p hp => hne p.2 (List.of_mem_zip hp).2
    rw [hpush, hafter]
    refine hkeep m.Coherent h fun trip' origin candidates hinv' h' hmem => ?_
    obtain ⟨k, hk⟩ := List.getElem?_of_mem hmem
    obtain ⟨horigin, hcandidates⟩ := List.getElem?_zip_eq_some.mp hk
    rw [LayerGeneration.generate, List.getElem?_mapIdx, List.getElem?_map, horigin] at hcandidates
    exact h'.pushLayer hdet hinv' origin (hne candidates (List.of_mem_zip hmem).2)
      (Option.some.inj hcandidates).symm

theorem Coherent.tail (hdet : m.Deterministic) (hinv : trip.Inv) (h : m.Coherent trip) (n : ℕ) :
    m.Coherent (trip.tail n) := by
  by_cases hall : trip.origins.length ≤ n
  · rw [Trip.tail, Trip.layers, if_pos hall]
    exact h
  · by_cases hzero : n = 0
    · rw [Trip.tail, Trip.layers, if_neg hall, if_pos hzero]
      exact coherent_new
    · obtain ⟨t, cut, htrellis, hcut, htail⟩ := Trip.tail_cut hinv (by omega) (Nat.not_le.mp hall)
      have hlayers := hinv.layers_eq
      have hanchor : ∀ l, ((trip.tail n).candidates.layer l).map (List.map Candidate.anchor)
          = (trip.candidates.layer (trip.origins.length - n + l)).map (List.map Candidate.anchor) := by
        intro l
        rw [htail, ← hlayers]
        exact trip.candidates.anchor_tail (by omega) l
      refine ⟨fun l => ?_, fun t' ht' k weights hk => ?_⟩
      · rw [hanchor, h.anchors, htail, List.getElem?_drop]
      · rw [htail] at ht'
        cases ht'
        -- the boundary is one of those the cut has kept, under another number
        obtain ⟨-, -, hpart⟩ := Trellis.last_ok hcut
        obtain ⟨-, -, hcutlayers, -, htransitions⟩ := Trellis.partition_view hpart
        have hlt := (List.getElem?_eq_some_iff.mp hk).1
        have hlen := ((hinv.mirrors t htrellis).valid.last hcut).transitions_length
        have hmirrors := (hinv.mirrors t htrellis).layers_eq
        have hstart : t.layers - n = trip.origins.length - n := by omega
        rw [htransitions k (by omega), hstart] at hk
        rw [← h.resolved t htrellis _ weights hk]
        refine bridged_congr hdet (hinv.tail n).placed hinv.placed (hanchor k) ?_
        rw [hanchor, Nat.add_assoc]

/-! ### Weighing a coherent trip -/

/-- Weighing a coherent trip comes down to weighing all of its boundaries anew. -/
theorem getElem?_weighed (h : m.Coherent trip) {t : Trellis} (ht : trip.trellis = some t) {k : ℕ}
    (hk : k < t.transitions.length) : (m.weighed trip t).transitions[k]?
      = some (m.weigher.bridged m.heuristics (m.context trip) k .pending) := by
  simp only [weighed, Weigher.weighedTrellis, List.getElem?_mapIdx, List.getElem?_eq_getElem hk,
    Option.map_some, Weigher.weighed]
  cases htransition : t.transitions[k] with
  | pending => rfl
  | resolved weights =>
    have hget : t.transitions[k]? = some (.resolved weights) := by
      rw [List.getElem?_eq_getElem hk, htransition]
    rw [h.resolved t ht k weights hget]
    rfl

/-- A trellis without gaps is not weighed again. -/
theorem weighed_of_fullyResolved {t : Trellis} (h : t.fullyResolved = true) :
    m.weighed trip t = t := by
  have hkeep : t.transitions.mapIdx (m.weigher.weighed m.heuristics (m.context trip))
      = t.transitions := by
    apply List.ext_getElem?
    intro k
    rw [List.getElem?_mapIdx]
    rcases Nat.lt_or_ge k t.transitions.length with hk | hk
    · obtain ⟨weights, hweights⟩ := t.fullyResolved_iff.mp h k hk
      rw [hweights]
      rfl
    · rw [List.getElem?_eq_none hk]
      rfl
  rw [weighed, Weigher.weighedTrellis, hkeep]

/-- The candidates of a layer are as its origin has them. -/
theorem Coherent.anchor_eq (h : m.Coherent trip) (h' : m.Coherent trip') {l l' : ℕ}
    (horigin : trip.origins[l]? = trip'.origins[l']?) :
    (trip.candidates.layer l).map (List.map Candidate.anchor)
      = (trip'.candidates.layer l').map (List.map Candidate.anchor) := by
  rw [h.anchors, h'.anchors, horigin]

/-- **The origins decide how a trip is weighed**, a layer and a boundary at a time. -/
theorem weighed_matches (hdet : m.Deterministic) (hinv : trip.Inv) (hinv' : trip'.Inv)
    (h : m.Coherent trip) (h' : m.Coherent trip') {t t' : Trellis} (ht : trip.trellis = some t)
    (ht' : trip'.trellis = some t') {L n : ℕ} (hn : n ≤ t.layers) (hn' : L + n ≤ t'.layers)
    (horigins : ∀ k < n, trip.origins[k]? = trip'.origins[L + k]?) :
    Trellis.Matches L n (m.weighed trip t) (m.weighed trip' t') := by
  have hmirrors := hinv.mirrors t ht
  have hmirrors' := hinv'.mirrors t' ht'
  have hanchor := fun k hk => h.anchor_eq h' (horigins k hk)
  refine ⟨hn, hn', fun k hk => ?_, fun k hk => ?_⟩
  · -- the nodes weigh what the candidates emit
    obtain ⟨candidates, hcandidates⟩ : ∃ candidates, trip.candidates.layer k = some candidates :=
      ⟨_, List.getElem?_eq_getElem (by rw [hmirrors.layers_eq]; omega)⟩
    have hget := hanchor k hk
    rw [hcandidates, Option.map_some] at hget
    obtain ⟨candidates', hcandidates', hanchors⟩ := Option.map_eq_some_iff.mp hget.symm
    have hemission : ∀ cs : List (Candidate E P), Trip.emissions cs
        = (cs.map Candidate.anchor).map fun anchor => min anchor.2.2 maxWeight := by
      intro cs
      rw [Trip.emissions, List.map_map]
      rfl
    calc t.nodeRow k = Trip.emissions candidates := hmirrors.nodeRow_eq k candidates hcandidates
      _ = Trip.emissions candidates' := by rw [hemission, hemission, hanchors]
      _ = t'.nodeRow (L + k) := (hmirrors'.nodeRow_eq (L + k) candidates' hcandidates').symm
  · -- the boundaries hold the weights of the hops across them
    have hlen := hmirrors.valid.transitions_length
    have hlen' := hmirrors'.valid.transitions_length
    rw [getElem?_weighed h ht (by omega), getElem?_weighed h' ht' (by omega),
      bridged_congr hdet hinv.placed hinv'.placed (hanchor k (by omega)) (hanchor (k + 1) hk)]

/-- Weighing makes trips of the same origins equal. -/
theorem weighed_eq_of_origins (hdet : m.Deterministic) (hinv : trip.Inv) (hinv' : trip'.Inv)
    (h : m.Coherent trip) (h' : m.Coherent trip') (horigins : trip.origins = trip'.origins)
    {t t' : Trellis} (ht : trip.trellis = some t) (ht' : trip'.trellis = some t') :
    m.weighed trip t = m.weighed trip' t' := by
  have hmirrors := hinv.mirrors t ht
  have hmirrors' := hinv'.mirrors t' ht'
  have hlayers : t.layers = t'.layers := by
    rw [← hmirrors.layers_eq, hinv.layers_eq, horigins, ← hinv'.layers_eq, hmirrors'.layers_eq]
  refine Trellis.Valid.eq_of_matches
    (m.weighed_valid hinv ht) (m.weighed_valid hinv' ht') hlayers
    (weighed_matches hdet hinv hinv' h h' ht ht' le_rfl
      ((Nat.zero_add t.layers).trans_le hlayers.le) fun k _ => ?_)
  rw [horigins, Nat.zero_add]

/-- The origins of a coherent trip are anchored. -/
theorem Coherent.anchors_of_mem (hdet : m.Deterministic) (hinv : trip.Inv) (h : m.Coherent trip)
    {origin : Origin P} (hmem : origin ∈ trip.origins) : m.anchors origin = true := by
  obtain ⟨l, hl⟩ := List.getElem?_of_mem hmem
  have hlt : l < trip.candidates.layers.length := by
    rw [hinv.layers_eq]
    exact (List.getElem?_eq_some_iff.mp hl).1
  have hlayer : trip.candidates.layer l = some trip.candidates.layers[l] :=
    List.getElem?_eq_getElem hlt
  have hanchors := h.anchors l
  rw [hlayer, hl, Option.map_some, Option.map_some, Option.some_inj] at hanchors
  refine (m.candidates_ne_nil hdet.generator origin 0).mp fun hnil => ?_
  rw [hnil, List.map_nil, List.map_eq_nil_iff] at hanchors
  exact hinv.layer_ne_nil hlayer hanchors

/-! ### Solving a coherent trip -/

variable [Inhabited P]

theorem Coherent.solve (hinv : trip.Inv) (h : m.Coherent trip) : m.Coherent (m.solve trip).2 := by
  obtain ⟨horigins, hcandidates, hnone, -⟩ := m.solve_frame hinv
  have hcontext : m.context (m.solve trip).2 = m.context trip := by
    rw [context, hcandidates, context]
  refine ⟨fun l => ?_, fun t ht k weights hk => ?_⟩
  · rw [hcandidates, horigins]
    exact h.anchors l
  · rw [hcontext]
    cases hstate : trip.state with
    | empty =>
      rw [m.solve_empty hstate, Trip.trellis, hstate] at ht
      cases ht
    | solved s =>
      rw [m.solve_solved hstate] at ht
      exact h.resolved t ht k weights hk
    | building u =>
      obtain ⟨state, hsolve, htrellis⟩ := m.solve_building hinv hstate
      rw [hsolve] at ht
      cases htrellis.symm.trans ht
      rcases m.weigher.getElem?_weighedTrellis m.heuristics hk with hold | ⟨-, hbridged⟩
      · exact h.resolved u (by rw [Trip.trellis, hstate]; rfl) k weights hold
      · exact hbridged

/-- **A solve** returns the outcome of the trip's trellis, weighed; a certificate is the
outcome it stands for. -/
theorem solve_fst (hinv : trip.Inv) {t : Trellis} (ht : trip.trellis = some t) :
    (m.solve trip).1 = outcome trip (m.weighed trip t) := by
  cases hstate : trip.state with
  | empty =>
    rw [Trip.trellis, hstate] at ht
    cases ht
  | building u =>
    obtain ⟨state, hsolve, -⟩ := m.solve_building hinv hstate
    rw [Trip.trellis, hstate] at ht
    cases ht
    rw [hsolve]
  | solved s =>
    have hvalid := (hinv.mirrors t ht).valid
    rw [Trip.trellis, hstate] at ht
    cases ht
    have hfull := ViterbiSolver.fullyResolved_of_solve hvalid s.solves
    rw [m.solve_solved hstate, weighed_of_fullyResolved hfull]
    simp only [outcome, Trellis.disconnections_eq_nil hfull, s.solves]
    rfl

/-- **The origins decide what a solve returns.** -/
theorem solve_eq_of_origins (hdet : m.Deterministic) (hinv : trip.Inv) (hinv' : trip'.Inv)
    (h : m.Coherent trip) (h' : m.Coherent trip') (horigins : trip.origins = trip'.origins) :
    (m.solve trip).1 = (m.solve trip').1 := by
  have hempty : trip.trellis = none ↔ trip'.trellis = none := by
    rw [hinv.empty_iff, hinv'.empty_iff, horigins]
  cases ht : trip.trellis with
  | none =>
    have hstate : ∀ {trip : Trip E P}, trip.trellis = none → trip.state = .empty := by
      intro trip hnone
      rw [Trip.trellis] at hnone
      cases hstate : trip.state <;> simp_all [TripState.trellis]
    rw [m.solve_empty (hstate ht), m.solve_empty (hstate (hempty.mp ht))]
  | some t =>
    obtain ⟨t', ht'⟩ : ∃ t', trip'.trellis = some t' := by
      rw [← Option.ne_none_iff_exists']
      exact fun hnone => by rw [hempty.mpr hnone] at ht; cases ht
    rw [solve_fst hinv ht, solve_fst hinv' ht',
      weighed_eq_of_origins hdet hinv hinv' h h' horigins ht ht']
    simp only [outcome, disconnected, Trip.point, horigins]

end Matcher

/-! ### Streaming -/

omit [DecidableEq E] [Inhabited E] in
/-- The strategies of the library are deterministic, whatever they are set to. -/
theorem deterministic_standard (map : Network E P M R) (emission : EmissionContext P → ℕ)
    (formula : List (P × E) → P → P → ResolutionMethod → Headings → VirtualTails → Option ℕ →
      Option ℕ → ℕ) (nearest : P → ℚ → List (P × Edge E)) (searchDistance : ℚ) (heap : Heap)
    (reachDistance : ℕ) (runtime : R) :
    Matcher.Deterministic ⟨map, ⟨emission, defaultTransitionCost formula⟩,
      standardGenerator nearest searchDistance emission, Weigher.allCompute heap reachDistance,
      runtime⟩ where
  generator := placeless_standardGenerator nearest searchDistance emission
  weigher := Weigher.placeless_allCompute heap reachDistance
  heuristics := placeless_default emission formula

theorem deterministic_roadMatcher (map : Network ℕ Milestone Unit Unit) :
    (roadMatcher map).Deterministic :=
  deterministic_standard ..

variable [Inhabited P]

/-- **Trips grown by one matcher are coherent.** -/
theorem Trip.Reached.coherent {m : Matcher E P M R} (hdet : m.Deterministic) {trip : Trip E P}
    (h : Trip.Reached (· = m) trip) : m.Coherent trip := by
  induction h with
  | new => exact Matcher.coherent_new
  | push origin h hm ih =>
    cases hm
    exact ih.push hdet h.inv origin
  | extend origins h hm ih =>
    cases hm
    exact ih.extend hdet h.inv origins
  | solve h hm ih =>
    cases hm
    exact ih.solve h.inv
  | snapshot h hm ih =>
    cases hm
    rw [Matcher.snapshot_trip]
    exact ih.solve h.inv
  | tail n h ih => exact ih.tail hdet h.inv n

/-- **Streaming equals batch.**  Whatever a matcher with deterministic strategies has done to
a trip, failed operations included, solving it returns what solving a fresh trip returns
that has been extended once by its origins. -/
theorem streaming_eq_batch {m : Matcher E P M R} (hdet : m.Deterministic) {trip : Trip E P}
    (h : Trip.Reached (· = m) trip) : (m.extend Trip.new trip.origins).1 = .ok () ∧
      (m.solve trip).1 = (m.solve (m.extend Trip.new trip.origins).2).1 := by
  have hfresh : Trip.Reached (· = m) (m.extend Trip.new trip.origins).2 := .extend _ .new rfl
  have hcoherent := h.coherent hdet
  obtain ⟨after, hafter, horigins⟩ := m.extend_accept hdet.generator Trip.inv_new fun origin hmem =>
    hcoherent.anchors_of_mem hdet h.inv hmem
  rw [hafter] at hfresh ⊢
  exact ⟨rfl, Matcher.solve_eq_of_origins hdet h.inv hfresh.inv hcoherent
    (hfresh.coherent hdet) horigins.symm⟩

/-- A cut trip, solved again, against the two origins it has left. -/
theorem streaming_eq_batch_road :
    ((roadMatcher straightRoad).solve (((roadMatcher straightRoad).solve roadTrip).2.tail 2)).1
      = ((roadMatcher straightRoad).solve
        ((roadMatcher straightRoad).extend Trip.new [⟨⟨60⟩, 1⟩, ⟨⟨250⟩, 2⟩]).2).1 := by
  have h : Trip.Reached (· = roadMatcher straightRoad)
      (((roadMatcher straightRoad).solve roadTrip).2.tail 2) :=
    .tail 2 (.solve (.extend _ .new rfl) rfl)
  have horigins : (((roadMatcher straightRoad).solve roadTrip).2.tail 2).origins
      = [⟨⟨60⟩, 1⟩, ⟨⟨250⟩, 2⟩] := by
    decide +kernel
  have hbatch := (streaming_eq_batch (deterministic_roadMatcher straightRoad) h).2
  rwa [horigins] at hbatch

end Routers
