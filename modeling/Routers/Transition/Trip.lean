import Routers.Transition.Candidate
import Routers.Trellis.Conformance
import Routers.Trellis.Window

/-!
# Trips

A trip is a match in the making: the origins observed so far, the candidates of each,
and a trellis as wide as these, which a solve turns into a certificate.  The three are
parallel and are only ever grown and cut together.

Operations taking `&mut self` return their result together with the trip they leave
behind, errors included: the state is taken out of the trip while an operation works on
it, and what an error path does not put back is lost.

## Main definitions

* `Solved` — a trellis with a path that solves it.
* `Trip`, `TripState` — the match state.
* `Trip.tail`, `Trip.pushLayer` — cutting and growing it.
* `Mirrors`, `Trip.Inv` — the trellis mirrors the candidates, the candidates the origins.

## Main results

* `Trip.Inv.pushLayer`, `Trip.Inv.tail` — **a push and a cut keep the trip in order.**

## References

`src/libs/routers_transition/src/matcher/trip.rs`,
`src/libs/routers_transition/src/matcher/origin.rs` and `src/libs/routers_trellis/src/solved.rs`.
-/

namespace Routers

/-! ### The solved trellis -/

/-- A solved trellis: a trellis paired with a path that solves it. -/
structure Solved where
  trellis : Trellis
  path : Path
  solves : ViterbiSolver.solve trellis = .ok path

namespace Solved

/-- Grow by one layer; a rejected width hands the certificate back. -/
def append (solved : Solved) (width : ℕ) : Except (Solved × TrellisError) (Trellis × ℕ) :=
  match solved.trellis.addLayer width with
  | (.ok id, trellis) => .ok (trellis, id)
  | (.error e, _) => .error (solved, e)

end Solved

/-- Solve a trellis into a certificate; a failed solve hands the trellis back. -/
def Trellis.solve (t : Trellis) : Except (Trellis × SolveError) Solved :=
  match h : ViterbiSolver.solve t with
  | .ok path => .ok ⟨t, path, h⟩
  | .error e => .error (t, e)

namespace Trellis

theorem solve_of_ok {t : Trellis} {path : Path} (h : ViterbiSolver.solve t = .ok path) :
    t.solve = .ok ⟨t, path, h⟩ := by
  unfold solve
  split
  · next path' h' =>
    rw [h] at h'
    cases h'
    rfl
  · next e h' =>
    rw [h] at h'
    cases h'

theorem solve_of_error {t : Trellis} {e : SolveError} (h : ViterbiSolver.solve t = .error e) :
    t.solve = .error (t, e) := by
  unfold solve
  split
  · next path h' =>
    rw [h] at h'
    cases h'
  · next e' h' =>
    rw [h] at h'
    cases h'
    rfl

end Trellis

/-! ### The trip -/

/-- One observed position and when it was observed. -/
structure Origin (P : Type) where
  point : P
  timestamp : ℤ
  deriving DecidableEq, Repr

/-- Where the trip's trellis sits between building and solved. -/
inductive TripState
  | empty
  | building (trellis : Trellis)
  | solved (solved : Solved)

/-- The state of a match. -/
structure Trip (E P : Type) where
  origins : List (Origin P)
  candidates : CandidateStore E P
  state : TripState

/-- The trellis of a state, if any layer has arrived. -/
def TripState.trellis : TripState → Option Trellis
  | empty => none
  | building t => some t
  | solved s => some s.trellis

namespace Trip

variable {E P : Type}

/-- A trip with no positions yet. -/
def new : Trip E P := ⟨[], CandidateStore.empty, .empty⟩

/-- Number of layers, one per accepted input position. -/
def layers (trip : Trip E P) : ℕ := trip.origins.length

/-- The id the next pushed layer will take. -/
def nextId (trip : Trip E P) : ℕ := trip.origins.length

/-- The input position that created a layer. -/
def point (trip : Trip E P) (layer : ℕ) : Option P := trip.origins[layer]?.map Origin.point

/-- The trellis grown so far, if any layer has arrived. -/
def trellis (trip : Trip E P) : Option Trellis := trip.state.trellis

/-- The trip with its state put in. -/
def restore (trip : Trip E P) (state : TripState) : Trip E P := { trip with state := state }

/-- Keep only the last `n` layers, discarding everything older; a solved trip reopens.
The cut is expected to succeed, and would panic otherwise. -/
def tail (trip : Trip E P) (n : ℕ) : Trip E P :=
  let len := trip.layers
  if len ≤ n then trip
  else if n = 0 then new
  else
    { origins := trip.origins.drop (len - n)
      candidates := trip.candidates.tail n
      state :=
        match trip.trellis with
        | none => .empty
        | some trellis =>
          match trellis.last n with
          | .ok cut => .building cut
          | .error _ => .empty }

/-- The trellis with room for one more layer of the given width, and its id, or the
error with the state the trip is left in. -/
def grow (state : TripState) (width : ℕ) : Except (TrellisError × TripState) (Trellis × ℕ) :=
  match state with
  | .empty =>
    match Trellis.new [width] with
    | .ok trellis => .ok (trellis, 0)
    | .error e => .error (e, .empty)
  | .building trellis =>
    match trellis.addLayer width with
    | (.ok id, trellis) => .ok (trellis, id)
    | (.error e, _) => .error (e, .empty)
  | .solved solved =>
    match solved.append width with
    | .ok grown => .ok grown
    | .error (solved, e) => .error (e, .solved solved)

/-- The candidates of a layer, each stamped with where it landed. -/
def stamp (layer : ℕ) (candidates : List (Candidate E P)) : List (Candidate E P) :=
  candidates.mapIdx fun node c => c.place ⟨layer, node⟩

/-- The emission costs of a layer, clamped to the weight ceiling. -/
def emissions (candidates : List (Candidate E P)) : List ℕ :=
  candidates.map fun c => min c.emission maxWeight

/-- Append one layer: its origin, its candidates, and a trellis layer carrying the
emission costs as node weights. -/
def pushLayer (trip : Trip E P) (origin : Origin P) (candidates : List (Candidate E P)) :
    Except TrellisError ℕ × Trip E P :=
  match grow trip.state candidates.length with
  | .error (e, state) => (.error e, trip.restore state)
  | .ok (trellis, id) =>
    let candidates := stamp id candidates
    match trellis.fillNodes id (emissions candidates) with
    | (.error e, _) => (.error e, trip.restore .empty)
    | (.ok (), trellis) =>
      (.ok id,
        { origins := trip.origins ++ [origin]
          candidates := trip.candidates.pushLayer candidates
          state := .building trellis })

end Trip

/-! ### The invariant -/

/-- The trellis is as wide as the candidates, and weighs its nodes by their emissions. -/
structure Mirrors {E P : Type} (store : CandidateStore E P) (t : Trellis) : Prop where
  valid : t.Valid
  widths_eq : store.layers.map List.length = t.widths
  nodeRow_eq : ∀ l candidates, store.layer l = some candidates →
    t.nodeRow l = Trip.emissions candidates

namespace Mirrors

variable {E P : Type} {store : CandidateStore E P} {t t' : Trellis}

theorem layers_eq (h : Mirrors store t) : store.layers.length = t.layers := by
  rw [Trellis.layers, ← h.widths_eq, List.length_map]

/-- A trellis with the same nodes mirrors the same candidates. -/
theorem of_eq (h : Mirrors store t) (hv : t'.Valid) (hwidths : t'.widths = t.widths)
    (hnodes : t'.nodes = t.nodes) : Mirrors store t' where
  valid := hv
  widths_eq := by rw [hwidths, h.widths_eq]
  nodeRow_eq l candidates hl := by
    rw [← h.nodeRow_eq l candidates hl, Trellis.nodeRow, Trellis.nodeRow, Trellis.offset,
      Trellis.offset, Trellis.offset, Trellis.offset, hwidths, hnodes]

end Mirrors

namespace Trip

variable {E P : Type} {trip : Trip E P}

/-- The trip is in order: one layer of candidates an origin, each candidate where its
location says, and a trellis that mirrors them once there is one. -/
structure Inv (trip : Trip E P) : Prop where
  layers_eq : trip.candidates.layers.length = trip.origins.length
  placed : trip.candidates.Placed
  empty_iff : trip.trellis = none ↔ trip.origins = []
  mirrors : ∀ t, trip.trellis = some t → Mirrors trip.candidates t

/-- What a trip in order looks like from outside. -/
structure WellFormed (trip : Trip E P) : Prop where
  empty_iff : trip.state = .empty ↔ trip.origins = []
  candidates_eq : trip.candidates.layers.length = trip.origins.length
  layers_eq : ∀ t, trip.trellis = some t → t.layers = trip.origins.length
  width_eq : ∀ t, trip.trellis = some t → ∀ l candidates,
    trip.candidates.layer l = some candidates → candidates.length = t.width l ∧ 0 < t.width l
  location_eq : ∀ r c, trip.candidates.candidate r = some c → c.location = r
  node_weight : ∀ t, trip.trellis = some t → ∀ r c, trip.candidates.candidate r = some c →
    t.nodeWeight r.layer r.node = some (min c.emission maxWeight)
  solved : ∀ s, trip.state = .solved s → s.trellis.IsCheapest s.path

theorem Inv.wellFormed (h : trip.Inv) : trip.WellFormed where
  empty_iff := by
    rw [← h.empty_iff, Trip.trellis]
    cases trip.state <;> simp [TripState.trellis]
  candidates_eq := h.layers_eq
  layers_eq t ht := by rw [← (h.mirrors t ht).layers_eq, h.layers_eq]
  width_eq t ht l candidates hl := by
    have hmirrors := h.mirrors t ht
    have hlt : l < t.layers := by
      rw [← hmirrors.layers_eq]
      exact (List.getElem?_eq_some_iff.mp hl).1
    refine ⟨?_, hmirrors.valid.width_pos_of_lt hlt⟩
    rw [Trellis.width, ← hmirrors.widths_eq, List.getD_eq_getElem?_getD, List.getElem?_map]
    rw [CandidateStore.layer] at hl
    rw [hl]
    rfl
  location_eq := h.placed
  node_weight t ht r c hc := by
    have hmirrors := h.mirrors t ht
    rw [CandidateStore.candidate_eq] at hc
    obtain ⟨candidates, hl, hn⟩ := Option.bind_eq_some_iff.mp hc
    have hlt : r.layer < t.layers := by
      rw [← hmirrors.layers_eq]
      exact (List.getElem?_eq_some_iff.mp hl).1
    rw [Trellis.nodeWeight, t.nodeWeights_eq hlt, hmirrors.nodeRow_eq _ candidates hl,
      Option.bind_some, emissions, List.getElem?_map, hn]
    rfl
  solved s hs := by
    have hmirrors := h.mirrors s.trellis (by rw [Trip.trellis, hs]; rfl)
    exact ViterbiSolver.isCheapest_of_solve hmirrors.valid s.solves

/-- No layer of a trip in order is empty. -/
theorem Inv.layer_ne_nil (h : trip.Inv) {l : ℕ} {candidates : List (Candidate E P)}
    (hl : trip.candidates.layer l = some candidates) : candidates ≠ [] := by
  have hlt := (List.getElem?_eq_some_iff.mp hl).1
  cases htrellis : trip.trellis with
  | none =>
    rw [h.layers_eq, h.empty_iff.mp htrellis] at hlt
    cases hlt
  | some t =>
    obtain ⟨hlen, hpos⟩ := h.wellFormed.width_eq t htrellis l candidates hl
    exact List.ne_nil_of_length_pos (hlen ▸ hpos)

theorem inv_new : (new : Trip E P).Inv where
  layers_eq := rfl
  placed r c h := by
    rw [new, CandidateStore.candidate, CandidateStore.empty] at h
    cases h
  empty_iff := ⟨fun _ => rfl, fun _ => rfl⟩
  mirrors t h := by cases h

/-- Another state with a trellis that mirrors the candidates keeps the trip in order. -/
theorem Inv.restore (h : trip.Inv) {state : TripState} {t t' : Trellis} (ht : trip.trellis = some t)
    (hstate : state.trellis = some t') (hmirrors : Mirrors trip.candidates t') :
    (trip.restore state).Inv where
  layers_eq := h.layers_eq
  placed := h.placed
  empty_iff := by
    have hne : trip.origins ≠ [] := fun hnil => by
      rw [h.empty_iff.mpr hnil] at ht
      cases ht
    simp [Trip.restore, Trip.trellis, hstate, hne]
  mirrors u hu := by
    rw [Trip.trellis, Trip.restore, hstate] at hu
    cases hu
    exact hmirrors

/-! ### Pushing a layer -/

theorem getElem?_stamp (layer : ℕ) (candidates : List (Candidate E P)) (node : ℕ) :
    (stamp layer candidates)[node]? = candidates[node]?.map fun c => c.place ⟨layer, node⟩ := by
  rw [stamp, List.getElem?_mapIdx]

theorem anchor_stamp (layer : ℕ) (candidates : List (Candidate E P)) :
    (stamp layer candidates).map Candidate.anchor = candidates.map Candidate.anchor := by
  apply List.ext_getElem?
  intro node
  simp only [List.getElem?_map, getElem?_stamp, Option.map_map]
  rfl

/-- A trellis grown for one more layer: it mirrors the candidates so far, has no
resolved transition that the trip's had not, and zero weights on the new nodes. -/
structure Grown (trip : Trip E P) (width : ℕ) (t : Trellis) : Prop where
  valid : t.Valid
  widths_eq : t.widths = trip.candidates.layers.map List.length ++ [width]
  nodeRow_eq : ∀ l candidates, trip.candidates.layer l = some candidates →
    t.nodeRow l = emissions candidates
  resolved : ∀ (k : ℕ) (weights : List ℕ), t.transitions[k]? = some (Transition.resolved weights) →
    ∃ t', trip.trellis = some t' ∧ t'.transitions[k]? = some (Transition.resolved weights)

theorem grown_addLayer {t t' : Trellis} (h : Mirrors trip.candidates t)
    (htrellis : trip.trellis = some t) {width id : ℕ} (hadd : t.addLayer width = (.ok id, t')) :
    trip.Grown width t' := by
  obtain ⟨-, -, hrows, -, htransitions⟩ := Trellis.addLayer_view h.valid hadd
  obtain ⟨-, -, heq⟩ := Trellis.addLayer_ok hadd
  refine ⟨h.valid.addLayer hadd, ?_, fun l candidates hl => ?_, fun k weights hk => ?_⟩
  · rw [heq, h.widths_eq]
  · have hlt : l < t.layers := by
      rw [← h.layers_eq]
      exact (List.getElem?_eq_some_iff.mp hl).1
    rw [hrows l hlt, h.nodeRow_eq l candidates hl]
  · refine ⟨t, htrellis, ?_⟩
    rw [htransitions, List.getElem?_append] at hk
    split_ifs at hk with hlt
    · exact hk
    · rw [List.getElem?_singleton] at hk
      split_ifs at hk
      cases hk

/-- A trip in order grows by any layer that is not empty. -/
theorem Inv.grow (h : trip.Inv) {width : ℕ} (hwidth : 0 < width) :
    ∃ t, grow trip.state width = .ok (t, trip.origins.length) ∧ trip.Grown width t := by
  have hadd : ∀ t, trip.trellis = some t →
      ∃ t', t.addLayer width = (.ok trip.origins.length, t') ∧ trip.Grown width t' := by
    intro t ht
    have hmirrors := h.mirrors t ht
    obtain ⟨t', ht'⟩ := Trellis.addLayer_accept t hwidth
    refine ⟨t', ?_, grown_addLayer hmirrors ht ht'⟩
    rw [ht', ← hmirrors.layers_eq, h.layers_eq]
  unfold Trip.grow
  cases hstate : trip.state with
  | empty =>
    have hnone : trip.trellis = none := by
      rw [Trip.trellis, hstate]
      rfl
    have horigins := h.empty_iff.mp hnone
    have hlayers : trip.candidates.layers = [] := by
      rw [← List.length_eq_zero_iff, h.layers_eq, horigins]
      rfl
    have hnew : Trellis.new [width] = .ok ⟨[width], List.replicate width 0, []⟩ := by
      simp [Trellis.new, hwidth.ne']
    refine ⟨_, by rw [hnew, horigins]; rfl, Trellis.new_valid hnew, ?_, ?_, ?_⟩
    · rw [hlayers]
      rfl
    · intro l candidates hl
      rw [CandidateStore.layer, hlayers] at hl
      cases hl
    · intro k weights hk
      cases hk
  | building t =>
    obtain ⟨t', ht', hgrown⟩ := hadd t (by rw [Trip.trellis, hstate]; rfl)
    exact ⟨t', by simp only [ht'], hgrown⟩
  | solved s =>
    obtain ⟨t', ht', hgrown⟩ := hadd s.trellis (by rw [Trip.trellis, hstate]; rfl)
    exact ⟨t', by simp only [Solved.append, ht'], hgrown⟩

theorem emissions_le_maxWeight (candidates : List (Candidate E P)) :
    ∀ w ∈ emissions candidates, w ≤ maxWeight := by
  intro w hw
  obtain ⟨c, -, rfl⟩ := List.mem_map.mp hw
  exact Nat.min_le_right _ _

/-- Candidates that are stamped when they are pushed are where their locations say. -/
theorem Inv.placed_pushLayer (h : trip.Inv) (candidates : List (Candidate E P)) :
    (trip.candidates.pushLayer (stamp trip.origins.length candidates)).Placed := by
  intro r c hc
  rw [CandidateStore.candidate_eq, CandidateStore.layer_pushLayer] at hc
  split_ifs at hc with hr
  · rw [Option.bind_some, getElem?_stamp, Option.map_eq_some_iff] at hc
    obtain ⟨c', -, rfl⟩ := hc
    rw [← h.layers_eq, ← hr]
    rfl
  · exact h.placed r c hc

/-- Filled with the emission costs, a grown trellis mirrors the new layer as well. -/
theorem Grown.mirrors (h : trip.Inv) {candidates : List (Candidate E P)} {grown t : Trellis}
    (hgrown : trip.Grown candidates.length grown)
    (ht : grown.fillNodes trip.origins.length (emissions (stamp trip.origins.length candidates))
      = (.ok (), t)) :
    Mirrors (trip.candidates.pushLayer (stamp trip.origins.length candidates)) t := by
  obtain ⟨-, -, hrow, hrows, -⟩ := Trellis.fillNodes_view hgrown.valid ht
  obtain ⟨-, -, -, heq⟩ := Trellis.fillNodes_ok ht
  refine ⟨hgrown.valid.fillNodes ht, ?_, fun l layer hl => ?_⟩
  · rw [heq]
    simp only [hgrown.widths_eq, CandidateStore.pushLayer, List.map_append, List.map_singleton]
    simp [stamp]
  · rw [CandidateStore.layer_pushLayer] at hl
    split_ifs at hl with hlast
    · cases hl
      rw [hlast, h.layers_eq, hrow]
    · have hne : l ≠ trip.origins.length := by
        rw [← h.layers_eq]
        exact hlast
      rw [hrows l hne, hgrown.nodeRow_eq l layer hl]

/-- **A push** appends the origin and its candidates, stamped, and leaves a trellis that
mirrors them and resolves nothing new. -/
theorem Inv.pushLayer (h : trip.Inv) (origin : Origin P) {candidates : List (Candidate E P)}
    (hne : candidates ≠ []) : ∃ t,
      trip.pushLayer origin candidates = (.ok trip.origins.length,
        { origins := trip.origins ++ [origin]
          candidates := trip.candidates.pushLayer (stamp trip.origins.length candidates)
          state := .building t }) ∧
      (trip.pushLayer origin candidates).2.Inv ∧
      ∀ (k : ℕ) (weights : List ℕ), t.transitions[k]? = some (Transition.resolved weights) →
        ∃ t', trip.trellis = some t' ∧ t'.transitions[k]? = some (Transition.resolved weights) := by
  obtain ⟨grown, hgrow, hgrown⟩ := h.grow (List.length_pos_iff.mpr hne)
  have hlayers : grown.layers = trip.origins.length + 1 := by
    rw [Trellis.layers, hgrown.widths_eq]
    simp [h.layers_eq]
  have hwidth : grown.width trip.origins.length = candidates.length := by
    rw [Trellis.width, hgrown.widths_eq, ← h.layers_eq]
    simp
  have hlen : (emissions (stamp trip.origins.length candidates)).length
      = grown.width trip.origins.length := by
    rw [hwidth]
    simp [emissions, stamp]
  obtain ⟨t, ht⟩ := Trellis.fillNodes_accept (by omega) hlen (emissions_le_maxWeight _)
  obtain ⟨-, -, -, -, htransitions⟩ := Trellis.fillNodes_view hgrown.valid ht
  have hpush : trip.pushLayer origin candidates = (.ok trip.origins.length,
      { origins := trip.origins ++ [origin]
        candidates := trip.candidates.pushLayer (stamp trip.origins.length candidates)
        state := .building t }) := by
    unfold Trip.pushLayer
    simp only [hgrow, ht]
  refine ⟨t, hpush, ?_, fun k weights hk => ?_⟩
  · rw [hpush]
    refine ⟨by simp [CandidateStore.pushLayer, h.layers_eq], h.placed_pushLayer candidates, ?_,
      fun t' ht' => ?_⟩
    · simp [Trip.trellis, TripState.trellis]
    · cases ht'
      exact hgrown.mirrors h ht
  · rw [htransitions] at hk
    exact hgrown.resolved k weights hk

/-! ### Cutting -/

/-- A cut keeps the last origins. -/
theorem origins_tail (trip : Trip E P) (n : ℕ) :
    (trip.tail n).origins = trip.origins.drop (trip.origins.length - n) := by
  unfold tail layers
  simp only
  split_ifs with hall hzero
  · rw [Nat.sub_eq_zero_of_le hall, List.drop_zero]
  · rw [hzero, Nat.sub_zero, List.drop_length]
    rfl
  · rfl

/-- What is left of a trip after a cut inside it. -/
theorem tail_cut (h : trip.Inv) {n : ℕ} (hpos : 0 < n) (hn : n < trip.origins.length) :
    ∃ t cut, trip.trellis = some t ∧ t.last n = .ok cut ∧
      trip.tail n = ⟨trip.origins.drop (trip.origins.length - n), trip.candidates.tail n,
        .building cut⟩ := by
  cases htrellis : trip.trellis with
  | none =>
    rw [h.empty_iff.mp htrellis] at hn
    cases hn
  | some t =>
    obtain ⟨cut, hcut⟩ := Trellis.last_accept hpos (h.mirrors t htrellis).valid.layers_pos
    refine ⟨t, cut, rfl, hcut, ?_⟩
    have hlen : ¬ trip.layers ≤ n := Nat.not_le.mpr hn
    have hzero : n ≠ 0 := hpos.ne'
    rw [tail, if_neg hlen, if_neg hzero]
    simp only [htrellis, hcut, layers]

/-- **A cut** keeps the trip in order. -/
theorem Inv.tail (h : trip.Inv) (n : ℕ) : (trip.tail n).Inv := by
  by_cases hall : trip.origins.length ≤ n
  · rw [Trip.tail, layers, if_pos hall]
    exact h
  · by_cases hzero : n = 0
    · rw [Trip.tail, layers, if_neg hall, if_pos hzero]
      exact inv_new
    · obtain ⟨t, cut, htrellis, hcut, htail⟩ := tail_cut h (by omega) (Nat.not_le.mp hall)
      have hmirrors := h.mirrors t htrellis
      have hlayers := hmirrors.layers_eq
      have hn : n < trip.candidates.layers.length := by
        rw [h.layers_eq]
        omega
      obtain ⟨-, -, hpart⟩ := Trellis.last_ok hcut
      obtain ⟨-, -, hcutlayers, hrows, -⟩ := Trellis.partition_view hpart
      obtain ⟨-, -, heq⟩ := Trellis.partition_ok hpart
      rw [htail]
      refine ⟨?_, h.placed.tail hn, ?_, fun t' ht' => ?_⟩
      · rw [trip.candidates.length_tail hn, List.length_drop]
        omega
      · simp [Trip.trellis, TripState.trellis]
        omega
      · cases ht'
        refine ⟨hmirrors.valid.last hcut, ?_, fun l candidates hl => ?_⟩
        · rw [heq]
          apply List.ext_getElem?
          intro l
          have hlayer := congrArg (Option.map List.length) (trip.candidates.layer_tail hn l)
          rw [Option.map_map, CandidateStore.layer, CandidateStore.layer] at hlayer
          have hold : trip.candidates.layers[trip.candidates.layers.length - n + l]?.map List.length
              = t.widths[t.layers - n + l]? := by
            rw [← hmirrors.widths_eq, List.getElem?_map, hlayers]
          have hslice : (slice t.widths ⟨t.layers - n, t.layers⟩)[l]? = t.widths[t.layers - n + l]? := by
            simp only [slice, Trellis.layers, List.take_length, List.getElem?_drop]
          rw [List.getElem?_map, hlayer, hslice, ← hold]
          congr 1
          funext candidates
          simp
        · rw [trip.candidates.layer_tail hn] at hl
          obtain ⟨old, hold, rfl⟩ := Option.map_eq_some_iff.mp hl
          have hlt := (List.getElem?_eq_some_iff.mp hold).1
          rw [hrows l (by omega), ← hlayers, hmirrors.nodeRow_eq _ old hold]
          simp only [emissions, List.map_map]
          rfl

end Trip

end Routers
