import Routers.Transition.Streaming
import Mathlib.Data.Nat.Find

/-!
# Reconciling a trip with the history

Between two matches a trip is persisted, while the history of observations goes on: old
ones fall out of its window and new ones arrive.  Reconciling keeps of the trip what the
history begins with, and tells which observations are fresh.

An observation agrees with another when both time and position do.  The history is
compared from its first observation on.

## Main definitions

* `Continuation`, `Continuation.reconcile` — to resume a trip, or to start over.
* `Continuation.Retained` — what a resumed trip is to be.
* `Matcher.pushAll` — pushing the fresh observations.

## Main results

* `Continuation.reconcile_sound` — **reconciling loses and invents nothing**, and matching
  on from a reconciled trip is matching the whole history.
* `Continuation.resume_iff` — **a trip found in a history resumes exactly when it stands at
  the front.**

## References

`src/libs/routers_transition/src/matcher/continuation.rs` and
`src/libs/routers_transition/src/matcher/trip.rs`.
-/

namespace Routers

/-- What becomes of a persisted trip. -/
inductive Continuation (E P : Type)
  /-- The trip agrees with the history, and is resumable with the observations beyond it. -/
  | resume (trip : Trip E P) (fresh : List (Origin P))
  /-- The trip contradicts the history, or there was none. -/
  | restart (fresh : List (Origin P))

namespace Continuation

variable {E P : Type} [DecidableEq P]

/-- The most of the last origins that the history begins with. -/
def overlap (origins history : List (Origin P)) : ℕ :=
  Nat.findGreatest (fun k => origins.drop (origins.length - k) = history.take k)
    (min origins.length history.length)

/-- Reconcile a persisted trip with the committed history, oldest first. -/
def reconcile (persisted : Option (Trip E P)) (history : List (Origin P)) : Continuation E P :=
  match persisted with
  | none => .restart history
  | some trip =>
    let overlap := overlap trip.origins history
    if overlap = 0 then .restart history
    else .resume (trip.tail overlap) (history.drop overlap)

/-- The trip to go on with, and the observations to push onto it. -/
def start : Continuation E P → Trip E P × List (Origin P)
  | resume trip fresh => (trip, fresh)
  | restart fresh => (Trip.new, fresh)

/-- What is retained of a trip: a trip in order and not empty, which together with the fresh
observations makes up the history, and no more of the trip would. -/
structure Retained (trip retained : Trip E P) (fresh history : List (Origin P)) : Prop where
  wellFormed : retained.WellFormed
  origins_ne : retained.origins ≠ []
  append_eq : retained.origins ++ fresh = history
  suffix : retained.origins <:+ trip.origins
  longest : ∀ shared, shared <:+ trip.origins → shared <+: history →
    shared.length ≤ retained.origins.length

/-! ### The overlap -/

section Overlap

variable (origins history : List (Origin P))

theorem overlap_le : overlap origins history ≤ min origins.length history.length :=
  Nat.findGreatest_le _

theorem drop_overlap : origins.drop (origins.length - overlap origins history)
    = history.take (overlap origins history) :=
  Nat.findGreatest_spec (P := fun k => origins.drop (origins.length - k) = history.take k)
    (Nat.zero_le _) (by simp)

variable {origins history}

/-- **No overlap is longer.** -/
theorem le_overlap {shared : List (Origin P)} (hsuffix : shared <:+ origins)
    (hbegins : shared <+: history) : shared.length ≤ overlap origins history := by
  apply Nat.le_findGreatest (le_min hsuffix.length_le hbegins.length_le)
  rw [← List.suffix_iff_eq_drop.mp hsuffix, ← List.prefix_iff_eq_take.mp hbegins]

end Overlap

/-- A trip is resumed with its overlap, if there is any. -/
theorem reconcile_cases (trip : Trip E P) (history : List (Origin P)) :
    (overlap trip.origins history = 0 ∧ reconcile (some trip) history = .restart history) ∨
      (0 < overlap trip.origins history ∧ reconcile (some trip) history
        = .resume (trip.tail (overlap trip.origins history))
            (history.drop (overlap trip.origins history))) := by
  unfold reconcile
  simp only
  by_cases hzero : overlap trip.origins history = 0
  · rw [if_pos hzero]
    exact Or.inl ⟨hzero, rfl⟩
  · rw [if_neg hzero]
    exact Or.inr ⟨Nat.pos_of_ne_zero hzero, rfl⟩

/-- The origins a resumed trip is left with are those the history begins with. -/
theorem origins_tail_overlap (trip : Trip E P) (history : List (Origin P)) :
    (trip.tail (overlap trip.origins history)).origins
      = history.take (overlap trip.origins history) := by
  rw [Trip.origins_tail, drop_overlap]

/-- **A resumed trip** is what is to be retained. -/
theorem retained_of_resume {trip retained : Trip E P} {fresh history : List (Origin P)}
    (hinv : trip.Inv) (h : reconcile (some trip) history = .resume retained fresh) :
    Retained trip retained fresh history := by
  rcases reconcile_cases trip history with ⟨-, hrestart⟩ | ⟨hpos, hresume⟩
  · rw [hrestart] at h
    cases h
  · rw [hresume] at h
    cases h
    have horigins := origins_tail_overlap trip history
    have hlen : (trip.tail (overlap trip.origins history)).origins.length
        = overlap trip.origins history := by
      have hle := overlap_le trip.origins history
      rw [horigins, List.length_take]
      omega
    exact
      { wellFormed := (hinv.tail _).wellFormed
        origins_ne := by
          rw [← List.length_pos_iff, hlen]
          exact hpos
        append_eq := by rw [horigins, List.take_append_drop]
        suffix := by
          rw [Trip.origins_tail]
          exact List.drop_suffix _ _
        longest := fun shared hsuffix hbegins => by
          rw [hlen]
          exact le_overlap hsuffix hbegins }

theorem fresh_of_restart {persisted : Option (Trip E P)} {fresh history : List (Origin P)}
    (h : reconcile persisted history = .restart fresh) : fresh = history := by
  cases persisted with
  | none =>
    cases h
    rfl
  | some trip =>
    rcases reconcile_cases trip history with ⟨-, hrestart⟩ | ⟨-, hresume⟩
    · rw [hrestart] at h
      cases h
      rfl
    · rw [hresume] at h
      cases h

/-! ### Where a trip stands in the history -/

/-- Behind other observations a trip is not found. -/
theorem overlap_eq_zero {origins before after : List (Origin P)} (hbefore : before ≠ [])
    (hdistinct : ((before ++ origins ++ after).map Origin.timestamp).Nodup) :
    overlap origins (before ++ origins ++ after) = 0 := by
  by_contra hpos
  obtain ⟨first, rest, rfl⟩ := List.exists_cons_of_ne_nil hbefore
  -- the first observation of the history would be one of the trip's
  have hmem : first ∈ origins := by
    have hdrop := drop_overlap origins (first :: rest ++ origins ++ after)
    obtain ⟨k, hk⟩ := Nat.exists_eq_succ_of_ne_zero hpos
    rw [hk, List.append_assoc, List.cons_append, List.take_succ_cons] at hdrop
    exact List.mem_of_mem_drop (hdrop ▸ List.mem_cons_self)
  rw [List.append_assoc, List.cons_append, List.map_cons, List.nodup_cons] at hdistinct
  apply hdistinct.1
  apply List.mem_map_of_mem
  simp [hmem]

/-- At the front a trip is found whole. -/
theorem overlap_eq_length (origins after : List (Origin P)) :
    overlap origins (origins ++ after) = origins.length :=
  le_antisymm ((overlap_le _ _).trans (Nat.min_le_left _ _))
    (le_overlap (List.suffix_refl _) (List.prefix_append _ _))

/-- **A trip found in a history** of distinct times resumes whole, with what comes after it
fresh, exactly when nothing comes before it. -/
theorem resume_iff {trip : Trip E P} (hne : trip.origins ≠ []) {before after : List (Origin P)}
    (hdistinct : ((before ++ trip.origins ++ after).map Origin.timestamp).Nodup) :
    reconcile (some trip) (before ++ trip.origins ++ after) = .resume trip after ↔ before = [] := by
  have hlen := List.length_pos_iff.mpr hne
  constructor
  · intro hresume
    by_contra hbefore
    rw [reconcile, overlap_eq_zero hbefore hdistinct, if_pos rfl] at hresume
    cases hresume
  · rintro rfl
    have hall : trip.tail trip.origins.length = trip := by
      rw [Trip.tail, Trip.layers, if_pos le_rfl]
    rw [List.nil_append, reconcile, overlap_eq_length, if_neg hlen.ne', hall, List.drop_left]

/-- The trip along the road, solved and cut behind the layer it has converged on. -/
def cutTrip : Trip ℕ Milestone := ((roadMatcher straightRoad).snapshot roadTrip).2.tail 1

/-- Nothing comes before the cut trip in a history whose window begins with it. -/
theorem resume_iff_cutTrip :
    reconcile (some cutTrip) [⟨⟨250⟩, 2⟩, ⟨⟨270⟩, 3⟩] = .resume cutTrip [⟨⟨270⟩, 3⟩] := by
  have horigins : cutTrip.origins = [⟨⟨250⟩, 2⟩] := by decide +kernel
  have hresume : reconcile (some cutTrip) ([] ++ cutTrip.origins ++ [⟨⟨270⟩, 3⟩])
      = .resume cutTrip [⟨⟨270⟩, 3⟩] :=
    (resume_iff (by rw [horigins]; simp) (by rw [horigins]; decide)).mpr rfl
  rwa [horigins] at hresume

/-- The history still begins with the observations the cut has dropped. -/
theorem cutTrip_restarts :
    Matcher.convergence ((roadMatcher straightRoad).snapshot roadTrip).2 = .ok (some 2) ∧
    ¬ ∀ before after : List (Origin Milestone),
      ((before ++ cutTrip.origins ++ after).map Origin.timestamp).Nodup →
        reconcile (some cutTrip) (before ++ cutTrip.origins ++ after) = .resume cutTrip after := by
  have horigins : cutTrip.origins = [⟨⟨250⟩, 2⟩] := by decide +kernel
  refine ⟨by decide +kernel, fun h => ?_⟩
  have hresume := h [⟨⟨30⟩, 0⟩, ⟨⟨60⟩, 1⟩] [⟨⟨270⟩, 3⟩] (by rw [horigins]; decide)
  have hoverlap : overlap cutTrip.origins
      ([⟨⟨30⟩, 0⟩, ⟨⟨60⟩, 1⟩] ++ cutTrip.origins ++ [⟨⟨270⟩, 3⟩]) = 0 := by
    rw [horigins]
    decide
  rw [reconcile, hoverlap, if_pos rfl] at hresume
  cases hresume

end Continuation

/-! ### Pushing the fresh observations -/

namespace Matcher

variable {E P M R : Type} [DecidableEq E] [Inhabited E] [Geometry P] [Inhabited P]

/-- Push observations one after another; one that is refused is dropped. -/
def pushAll (m : Matcher E P M R) (trip : Trip E P) (fresh : List (Origin P)) : Trip E P :=
  fresh.foldl (fun trip origin => (m.push trip origin).2) trip

/-- **Pushing all** appends the origins that are anchored. -/
theorem pushAll_spec {m : Matcher E P M R} (hgenerator : m.generator.Placeless) :
    ∀ (fresh : List (Origin P)) {trip : Trip E P}, Trip.Reached (· = m) trip →
      Trip.Reached (· = m) (m.pushAll trip fresh) ∧
        (m.pushAll trip fresh).origins = trip.origins ++ fresh.filter m.anchors := by
  intro fresh
  induction fresh with
  | nil =>
    intro trip h
    exact ⟨h, by simp [pushAll]⟩
  | cons origin fresh ih =>
    intro trip h
    obtain ⟨hreached, horigins⟩ := ih (.push origin h rfl)
    refine ⟨hreached, ?_⟩
    rw [pushAll, List.foldl_cons]
    rw [pushAll] at horigins
    rw [horigins, m.origins_push hgenerator h.inv, List.append_assoc, ← List.filter_append]
    rfl

end Matcher

/-- Fewer kinds of matchers lead to fewer trips. -/
theorem Trip.Reached.mono {E P M R : Type} [DecidableEq E] [Inhabited E] [Geometry P] [Inhabited P]
    {allowed allowed' : Matcher E P M R → Prop} (hsub : ∀ m, allowed m → allowed' m)
    {trip : Trip E P} (h : Trip.Reached allowed trip) : Trip.Reached allowed' trip := by
  induction h with
  | new => exact .new
  | push origin _ hm ih => exact .push origin ih (hsub _ hm)
  | extend origins _ hm ih => exact .extend origins ih (hsub _ hm)
  | solve _ hm ih => exact .solve ih (hsub _ hm)
  | snapshot _ hm ih => exact .snapshot ih (hsub _ hm)
  | tail n _ ih => exact .tail n ih

namespace Continuation

variable {E P M R : Type} [DecidableEq E] [Inhabited E] [Geometry P] [Inhabited P] [DecidableEq P]

/-- The trip and the observations to go on with make up the anchored part of the history. -/
theorem start_spec {m : Matcher E P M R} (hdet : m.Deterministic) {persisted : Option (Trip E P)}
    (h : ∀ trip, persisted = some trip → Trip.Reached (· = m) trip) (history : List (Origin P)) :
    Trip.Reached (· = m) (reconcile persisted history).start.1 ∧
      (reconcile persisted history).start.1.origins
          ++ (reconcile persisted history).start.2.filter m.anchors
        = history.filter m.anchors := by
  cases hreconcile : reconcile persisted history with
  | restart fresh =>
    rw [fresh_of_restart hreconcile]
    exact ⟨.new, rfl⟩
  | resume retained fresh =>
    cases persisted with
    | none => cases hreconcile
    | some trip =>
      have hreached := h trip rfl
      have hretained := retained_of_resume hreached.inv hreconcile
      -- what a resumed trip holds has been anchored when it was pushed
      have hanchored : retained.origins.filter m.anchors = retained.origins := by
        refine List.filter_eq_self.mpr fun origin hmem => ?_
        exact (hreached.coherent hdet).anchors_of_mem hdet hreached.inv
          (hretained.suffix.subset hmem)
      refine ⟨?_, ?_⟩
      · rcases reconcile_cases trip history with ⟨-, hrestart⟩ | ⟨-, hresume⟩
        · rw [hrestart] at hreconcile
          cases hreconcile
        · rw [hresume] at hreconcile
          cases hreconcile
          exact .tail _ hreached
      · rw [← hretained.append_eq, List.filter_append, hanchored]
        rfl

/-- **Reconciling loses and invents nothing.**  A resumed trip is in order, is not empty and
makes up the history with the fresh observations, by the longest overlap; a restart is
given the history.  And with the one matcher that has led to the trip, its strategies
deterministic, pushing the fresh observations and solving returns what matching the whole
history from an empty trip returns: pushed one by one, where the same observations are
dropped, or all at once, where all are anchored. -/
theorem reconcile_sound {allowed : Matcher E P M R → Prop} {persisted : Option (Trip E P)}
    (h : ∀ trip, persisted = some trip → Trip.Reached allowed trip) (history : List (Origin P)) :
    (∀ retained fresh, reconcile persisted history = .resume retained fresh →
      ∃ trip, persisted = some trip ∧ Retained trip retained fresh history) ∧
    (∀ fresh, reconcile persisted history = .restart fresh → fresh = history) ∧
    ∀ m : Matcher E P M R, (∀ m', allowed m' → m' = m) → m.Deterministic →
      let (trip, fresh) := (reconcile persisted history).start
      (m.solve (m.pushAll trip fresh)).1 = (m.solve (m.pushAll Trip.new history)).1 ∧
      ((∀ origin ∈ history, m.anchors origin = true) →
        (m.pushAll trip fresh).origins = history ∧
        (m.extend Trip.new history).1 = .ok () ∧
        (m.solve (m.pushAll trip fresh)).1 = (m.solve (m.extend Trip.new history).2).1) := by
  refine ⟨fun retained fresh hresume => ?_, fun fresh => fresh_of_restart, fun m hm hdet => ?_⟩
  · cases persisted with
    | none => cases hresume
    | some trip => exact ⟨trip, rfl, retained_of_resume (h trip rfl).inv hresume⟩
  · obtain ⟨hstart, horigins⟩ := start_spec hdet (fun trip htrip => (h trip htrip).mono hm) history
    obtain ⟨hgrown, hgrownOrigins⟩ :=
      m.pushAll_spec hdet.generator (reconcile persisted history).start.2 hstart
    obtain ⟨hwhole, hwholeOrigins⟩ := m.pushAll_spec hdet.generator history .new
    rw [horigins] at hgrownOrigins
    have hpushed := Matcher.solve_eq_of_origins hdet hgrown.inv hwhole.inv (hgrown.coherent hdet)
      (hwhole.coherent hdet) (hgrownOrigins.trans hwholeOrigins.symm)
    refine ⟨hpushed, fun hanchors => ?_⟩
    rw [List.filter_eq_self.mpr hanchors] at hgrownOrigins
    have hbatch := streaming_eq_batch hdet hgrown
    rw [hgrownOrigins] at hbatch
    exact ⟨hgrownOrigins, hbatch⟩

/-- The first observation has left the window, and a new one has come. -/
theorem reconcile_sound_road :
    ((roadMatcher straightRoad).solve
        ((roadMatcher straightRoad).pushAll (roadTrip.tail 2) [⟨⟨270⟩, 3⟩])).1
      = ((roadMatcher straightRoad).solve ((roadMatcher straightRoad).extend Trip.new
          [⟨⟨60⟩, 1⟩, ⟨⟨250⟩, 2⟩, ⟨⟨270⟩, 3⟩]).2).1 := by
  have hreached : ∀ trip, some roadTrip = some trip →
      Trip.Reached (· = roadMatcher straightRoad) trip := by
    rintro trip ⟨⟩
    exact .extend _ .new rfl
  have hsound := reconcile_sound hreached [⟨⟨60⟩, 1⟩, ⟨⟨250⟩, 2⟩, ⟨⟨270⟩, 3⟩]
  have hbatch := hsound.2.2 (roadMatcher straightRoad) (fun m hm => hm)
    (deterministic_roadMatcher straightRoad)
  exact (hbatch.2 (by decide +kernel)).2.2

end Continuation

end Routers
