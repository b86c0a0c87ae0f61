import Routers.Realtime.Redelivery

/-!
# Safety of lanes

With times in whole microseconds the archive gives back what it was given.  So whatever is in a
lane has an archived event at its side, and what is dropped has one too; what is done is archived;
what enters a lane is later than all that was done before; and a trip is committed behind the
emission of its solve.

## Main definitions

* `Pipeline.Covered` — what is in a lane or dropped is archived, or something later is.
* `Pipeline.LaneSafe` — nothing is lost, out of order or ahead of its emission.

## Main results

* `lane_safety` — **lanes are safe.**

## References

`src/libs/routers_realtime/bin/orchestrator.rs` and `src/libs/routers_realtime/src/event.rs`.
-/

namespace Routers

variable {E P : Type} {c : Settings} [Geometry P] [DecidableEq P]

/-- An archived event has a time, or a later one. -/
def CoveredBy (archived : List (StoredEvent P)) (time : DateTime) : Prop :=
  ∃ stored ∈ archived, ∃ event, stored.load = some event ∧ time ≤ event.timestamp

omit [Geometry P] [DecidableEq P] in
theorem CoveredBy.append {archived : List (StoredEvent P)} {time : DateTime}
    (h : CoveredBy archived time) (more : List (StoredEvent P)) :
    CoveredBy (archived ++ more) time := by
  obtain ⟨stored, hstored, h⟩ := h
  exact ⟨stored, List.mem_append_left _ hstored, h⟩

namespace Pipeline

/-! ### Lanes in order -/

/-- A lane is in order, and ends before the event that is behind its gate. -/
structure Ordered (s : Pipeline E P) : Prop where
  inOrder : ∀ lane, s.histories = some lane → InOrder lane
  before : ∀ d lane, s.stage.admitted = some d → s.histories = some lane →
    ∀ event ∈ lane, event.timestamp < d.payload.timestamp

omit [Geometry P] [DecidableEq P] in
theorem ordered_new : (new : Pipeline E P).Ordered := ⟨by simp [new], by simp [new]⟩

theorem Ordered.gate {s : Pipeline E P} (hs : s.Ordered) {lane : List (RawEvent P)}
    (hlane : s.histories = some lane) (d : Dispatch P) : (s.gate c lane d).Ordered := by
  obtain ⟨-, -, -, heq⟩ | ⟨hlt, heq⟩ := gate_cases c s lane d
  · rw [heq]
    exact { hs with before := by simp [finish, Stage.admitted] }
  · rw [heq]
    refine { hs with before := fun d' lane' hd hlane' event hevent => ?_ }
    cases hd
    cases hlane.symm.trans hlane'
    obtain ⟨last, hlast⟩ := Option.isSome_iff_exists.mp
      (List.getLast?_isSome.mpr (List.ne_nil_of_mem hevent))
    exact ((hs.inOrder lane hlane).le_last hlast hevent).trans_lt (hlt last hlast)

theorem Ordered.step {allowed : Payload P → Prop} {s s' : Pipeline E P} (hs : s.Ordered)
    (h : Step c allowed s s') : s'.Ordered := by
  cases h with
  | deliver d hstage hallowed => exact { hs with before := by simp [Stage.admitted] }
  | warm d lane hstage hlane hwarmed =>
    refine Ordered.gate (s := { s with histories := some lane }) ⟨fun lane' hlane' => ?_, ?_⟩ rfl d
    · cases hlane'
      exact (warmed_spec hwarmed).1
    · simp [hstage, Stage.admitted]
  | gate d lane hstage hlane => exact hs.gate hlane d
  | noMatch d context hstage =>
    exact { hs with before := fun d' lane hd => hs.before d' lane (by rw [hstage]; exact hd) }
  | solved d context diff trip hstage =>
    exact { hs with before := fun d' lane hd => hs.before d' lane (by rw [hstage]; exact hd) }
  | publish d solve hstage =>
    exact { hs with before := fun d' lane hd => hs.before d' lane (by rw [hstage]; exact hd) }
  | commit d solve hstage =>
    exact { hs with before := fun d' lane hd => hs.before d' lane (by rw [hstage]; exact hd) }
  | send d hstage =>
    exact { hs with before := fun d' lane hd => hs.before d' lane (by rw [hstage]; exact hd) }
  | collect n hbatch hn => exact { hs with }
  | append entry kept hentry hmin hle => exact { hs with }
  | retry => exact { hs with }
  | flush hwritten =>
    exact { hs with
      before := fun d lane hd => hs.before d lane (by rwa [Stage.admitted_report] at hd) }
  | enter d hstage =>
    refine ⟨fun lane hlane => ?_, by simp [finish, Stage.admitted]⟩
    obtain ⟨before, hbefore, rfl⟩ := Option.map_eq_some_iff.mp hlane
    exact (hs.inOrder before hbefore).entered (hs.before d before (by rw [hstage]; rfl) hbefore)
  | ack d outcome hstage => exact { hs with before := by simp [Stage.admitted] }
  | ackLost d outcome hstage => exact { hs with before := by simp [Stage.admitted] }
  | fail d hstage => exact { hs with before := by simp [Stage.admitted] }
  | evictLane => exact ⟨by simp, by simp⟩
  | evictTrip => exact { hs with }
  | restart => exact ⟨by simp, by simp⟩

/-! ### Commits -/

/-- A trip is committed behind the emission of its solve. -/
structure Committing (s : Pipeline E P) : Prop where
  stored : ∀ d solve, s.stage = .publishing d solve true → solve ∈ s.published
  committed : s.committed ⊆ s.published
  trips : ∀ trip, s.trips = some trip → ∃ solve ∈ s.committed, solve.trip = trip

omit [Geometry P] [DecidableEq P] in
theorem committing_new : (new : Pipeline E P).Committing where
  stored := by simp [new]
  committed := List.Subset.refl _
  trips := by simp [new]

/-- The gate commits nothing. -/
theorem Committing.gate {s : Pipeline E P} (hs : s.Committing) (lane : List (RawEvent P))
    (d : Dispatch P) : (s.gate c lane d).Committing := by
  obtain ⟨-, -, -, heq⟩ | ⟨-, heq⟩ := gate_cases c s lane d
  · rw [heq]
    exact { hs with stored := by simp [finish] }
  · rw [heq]
    exact { hs with stored := by simp }

theorem Committing.step {allowed : Payload P → Prop} {s s' : Pipeline E P} (hs : s.Committing)
    (h : Step c allowed s s') : s'.Committing := by
  cases h with
  | warm d lane hstage hlane hwarmed =>
    exact Committing.gate (s := { s with histories := some lane }) { hs with } lane d
  | gate d lane hstage hlane => exact hs.gate lane d
  | publish d solve hstage =>
    refine ⟨fun d' solve' hpublishing => ?_, fun solve' hsolve => ?_, hs.trips⟩
    · cases hpublishing
      exact List.mem_append_right _ (List.mem_singleton_self _)
    · exact List.mem_append_left _ (hs.committed hsolve)
  | commit d solve hstage =>
    refine ⟨by simp, fun solve' hsolve => ?_, fun trip htrip => ?_⟩
    · rcases List.mem_append.mp hsolve with hsolve | hsolve
      · exact hs.committed hsolve
      · rw [List.mem_singleton.mp hsolve]
        exact hs.stored d solve hstage
    · cases htrip
      exact ⟨solve, List.mem_append_right _ (List.mem_singleton_self _), rfl⟩
  | flush hwritten =>
    refine { hs with stored := fun d solve hpublishing => ?_ }
    obtain heq | ⟨d', ticket, -, -, heq⟩ :=
      s.stage.report_cases ((s.queue.take s.batch).map Prod.snd)
    · exact hs.stored d solve (heq.symm.trans hpublishing)
    · cases heq.symm.trans hpublishing
  | enter d hstage => exact { hs with stored := by simp [finish] }
  | evictTrip => exact { hs with trips := by simp }
  | restart => exact { hs with stored := by simp, trips := by simp }
  | collect | append | retry | evictLane => exact { hs with }
  | _ => exact { hs with stored := by simp }

/-! ### The archive behind the lane -/

/-- Times are in whole microseconds; what is in a lane or dropped has an archived event no earlier,
and what is done is archived. -/
structure Covered (s : Pipeline E P) : Prop where
  whole : ∀ d, s.stage.dispatch = some d → d.payload.timestamp.WholeMicros
  lane : ∀ lane, s.histories = some lane → ∀ event ∈ lane, CoveredBy s.archived event.timestamp
  dropped : ∀ payload reason, (payload, .dropped reason) ∈ s.returned →
    CoveredBy s.archived payload.timestamp
  done : ∀ payload, (payload, .done) ∈ s.returned →
    ∃ stored ∈ s.archived, stored.load = some payload.asEvent
  finished : ∀ d outcome, s.stage = .finished d outcome → (d.payload, outcome) ∈ s.returned
  acked : s.acked ⊆ s.returned

omit [Geometry P] [DecidableEq P] in
theorem covered_new : (new : Pipeline E P).Covered where
  whole := by simp [new, Stage.dispatch]
  lane := by simp [new]
  dropped := by simp [new]
  done := by simp [new]
  finished := by simp [new]
  acked := List.Subset.refl _

omit [Geometry P] [DecidableEq P] in
/-- A lane read back is read from what has been archived. -/
theorem Covered.warmed {s : Pipeline E P} (hs : s.Covered) (hsubset : s.archive ⊆ s.archived)
    {lane : List (RawEvent P)} (hwarmed : c.warmed s.archive = some lane) :
    ({ s with histories := some lane } : Pipeline E P).Covered := by
  refine { hs with lane := fun lane' hlane event hevent => ?_ }
  cases hlane
  obtain ⟨-, hof, -⟩ := warmed_spec hwarmed
  obtain ⟨stored, hstored, hload⟩ := hof event hevent
  exact ⟨stored, hsubset hstored, event, hload, le_rfl⟩

omit [Geometry P] [DecidableEq P] in
/-- An event is finished as dropped behind what is archived, or as done once it is archived. -/
theorem Covered.finish {s : Pipeline E P} (hs : s.Covered) {d : Dispatch P} {outcome : Processed}
    (hwhole : d.payload.timestamp.WholeMicros)
    (hdropped : ∀ reason, outcome = .dropped reason → CoveredBy s.archived d.payload.timestamp)
    (hdone : outcome = .done → ∃ stored ∈ s.archived, stored.load = some d.payload.asEvent) :
    (s.finish d outcome).Covered where
  whole := by
    intro d' hd'
    cases hd'
    exact hwhole
  lane := hs.lane
  dropped := by
    intro payload reason hmem
    rcases List.mem_append.mp hmem with hmem | hmem
    · exact hs.dropped payload reason hmem
    · obtain ⟨rfl, heq⟩ := Prod.mk.inj (List.mem_singleton.mp hmem)
      exact hdropped reason heq.symm
  done := by
    intro payload hmem
    rcases List.mem_append.mp hmem with hmem | hmem
    · exact hs.done payload hmem
    · obtain ⟨rfl, heq⟩ := Prod.mk.inj (List.mem_singleton.mp hmem)
      exact hdone heq.symm
  finished := by
    intro d' outcome' hfinished
    cases hfinished
    exact List.mem_append_right _ (List.mem_singleton_self _)
  acked := fun result hresult => List.mem_append_left _ (hs.acked hresult)

theorem Covered.gate {s : Pipeline E P} (hs : s.Covered) {lane : List (RawEvent P)}
    (hlane : s.histories = some lane) {d : Dispatch P} (hd : s.stage.dispatch = some d) :
    (s.gate c lane d).Covered := by
  have hwhole := hs.whole d hd
  obtain ⟨last, hlast, hle, heq⟩ | ⟨-, heq⟩ := gate_cases c s lane d
  · have hcovered : CoveredBy s.archived d.payload.timestamp := by
      obtain ⟨stored, hstored, event, hload, hlater⟩ :=
        hs.lane lane hlane last (List.mem_of_getLast? hlast)
      exact ⟨stored, hstored, event, hload, hle.trans hlater⟩
    rw [heq]
    exact hs.finish hwhole (fun _ _ => hcovered) (by simp)
  · rw [heq]
    refine { hs with whole := fun d' hd' => ?_, finished := by simp }
    cases hd'
    exact hwhole

omit [Geometry P] [DecidableEq P] in
/-- An event that is flushed ends the archive, which gives it back. -/
theorem Covered.enter {s : Pipeline E P} (hs : s.Covered) (hwriting : s.Writing) {d : Dispatch P}
    (hstage : s.stage = .flushed d) :
    ({ s with
      histories := s.histories.map fun lane => c.entered lane d.payload.asEvent
      entries := s.entries ++ [d.payload.asEvent] }.finish d .done).Covered := by
  have hwhole : d.payload.timestamp.WholeMicros := hs.whole d (by rw [hstage]; rfl)
  have hload : d.payload.asEvent.store.load = some d.payload.asEvent := RawEvent.load_store hwhole
  have harchived : d.payload.asEvent.store ∈ s.archived :=
    hwriting.archive_subset (List.mem_of_getLast? (hwriting.flushed d hstage).2)
  have hentered : ({ s with
      histories := s.histories.map fun lane => c.entered lane d.payload.asEvent
      entries := s.entries ++ [d.payload.asEvent] } : Pipeline E P).Covered := by
    refine { hs with lane := fun lane hlane event hevent => ?_ }
    obtain ⟨before, hbefore, rfl⟩ := Option.map_eq_some_iff.mp hlane
    rcases List.mem_append.mp ((entered_suffix before _).subset hevent) with hevent | hevent
    · exact hs.lane before hbefore event hevent
    · rw [List.mem_singleton.mp hevent]
      exact ⟨_, harchived, _, hload, le_rfl⟩
  exact hentered.finish hwhole (by simp) fun _ => ⟨_, harchived, hload⟩

theorem Covered.step {allowed : Payload P → Prop}
    (hallowed : ∀ payload, allowed payload → payload.timestamp.WholeMicros) {s s' : Pipeline E P}
    (hwriting : s.Writing) (hs : s.Covered) (h : Step c allowed s s') : s'.Covered := by
  -- the worker stays at an event
  have hstay : ∀ (stage : Stage E P) (d : Dispatch P), s.stage.dispatch = some d →
      stage.dispatch = some d → (∀ d' outcome, stage ≠ .finished d' outcome) →
      ({ s with stage := stage } : Pipeline E P).Covered := by
    intro stage d hd hstay hunfinished
    refine { hs with whole := fun d' hd' => ?_, finished := fun d' outcome hfinished => ?_ }
    · rw [← Option.some.inj (hstay.symm.trans hd')]
      exact hs.whole d hd
    · exact absurd hfinished (hunfinished d' outcome)
  cases h with
  | deliver d hstage hd =>
    refine { hs with whole := fun d' hd' => ?_, finished := by simp }
    cases hd'
    exact hallowed d.payload hd
  | warm d lane hstage hlane hwarmed =>
    exact (hs.warmed hwriting.archive_subset hwarmed).gate rfl (by rw [hstage]; rfl)
  | gate d lane hstage hlane => exact hs.gate hlane (by rw [hstage]; rfl)
  | noMatch d context hstage => exact hstay _ d (by rw [hstage]; rfl) rfl (by simp)
  | solved d context diff trip hstage =>
    exact { hstay (.publishing d _ false) d (by rw [hstage]; rfl) rfl (by simp) with }
  | publish d solve hstage =>
    exact { hstay (.publishing d solve true) d (by rw [hstage]; rfl) rfl (by simp) with }
  | commit d solve hstage =>
    exact { hstay (.archiving d) d (by rw [hstage]; rfl) rfl (by simp) with }
  | send d hstage => exact { hstay (.waiting d s.sends) d (by rw [hstage]; rfl) rfl (by simp) with }
  | collect n hbatch hn => exact { hs with }
  | append entry kept hentry hmin hle =>
    refine { hs with
      lane := fun lane hlane event hevent => (hs.lane lane hlane event hevent).append _
      dropped := fun payload reason hdropped => (hs.dropped payload reason hdropped).append _
      done := fun payload hdone => ?_ }
    obtain ⟨stored, hstored, hload⟩ := hs.done payload hdone
    exact ⟨stored, List.mem_append_left _ hstored, hload⟩
  | retry => exact { hs with }
  | flush hwritten =>
    obtain heq | ⟨d, ticket, hwaiting, -, heq⟩ :=
      s.stage.report_cases ((s.queue.take s.batch).map Prod.snd)
    · rw [heq]
      exact { hs with }
    · rw [heq]
      exact { hstay (.flushed d) d (by rw [hwaiting]; rfl) rfl (by simp) with }
  | enter d hstage => exact hs.enter hwriting hstage
  | ack d outcome hstage =>
    refine { hs with
      whole := by simp [Stage.dispatch]
      finished := by simp
      acked := fun result hresult => ?_ }
    rcases List.mem_append.mp hresult with hresult | hresult
    · exact hs.acked hresult
    · rw [List.mem_singleton.mp hresult]
      exact hs.finished d outcome hstage
  | ackLost d outcome hstage =>
    exact { hs with whole := by simp [Stage.dispatch], finished := by simp }
  | fail d hstage => exact hstay (.started d) d (Stage.dispatch_of_admitted hstage) rfl (by simp)
  | evictLane => exact { hs with lane := by simp }
  | evictTrip => exact { hs with }
  | restart =>
    exact { hs with whole := by simp [Stage.dispatch], lane := by simp, finished := by simp }

/-- An event enters a lane as it is done. -/
theorem entries_cases {allowed : Payload P → Prop} {s s' : Pipeline E P}
    (h : Step c allowed s s') : s'.entries = s.entries ∧ s.returned ⊆ s'.returned ∨
      ∃ d, s.stage = .flushed d ∧ s'.entries = s.entries ++ [d.payload.asEvent] ∧
        s'.returned = s.returned ++ [(d.payload, .done)] := by
  cases h with
  | warm d lane hstage hlane hwarmed =>
    exact Or.inl ⟨entries_gate c { s with histories := some lane } lane d,
      returned_subset_gate c { s with histories := some lane } lane d⟩
  | gate d lane hstage hlane =>
    exact Or.inl ⟨entries_gate c s lane d, returned_subset_gate c s lane d⟩
  | enter d hstage => exact Or.inr ⟨d, hstage, rfl, rfl⟩
  | _ => exact Or.inl ⟨rfl, List.Subset.refl _⟩

/-! ### Safety -/

/-- A lane is safe. -/
structure LaneSafe (c : Settings) (allowed : Payload P → Prop) (s : Pipeline E P) : Prop where
  /-- What is acknowledged as done is archived, and the archive gives it back. -/
  done_archived : ∀ payload, (payload, .done) ∈ s.acked →
    ∃ stored ∈ s.archived, stored.load = some payload.asEvent
  /-- What is newer than all that is archived is not dropped. -/
  newest_passes : ∀ d, s.stage = .started d →
    (∀ stored ∈ s.archived, ∀ event, stored.load = some event →
      event.timestamp < d.payload.timestamp) →
    ∀ s', Step c allowed s s' → ∀ reason, s'.stage ≠ .finished d (.dropped reason)
  /-- What is dropped has an archived event that is no earlier. -/
  dropped_covered : ∀ payload reason, (payload, .dropped reason) ∈ s.returned →
    CoveredBy s.archived payload.timestamp
  /-- Whatever enters a lane is later than all that has entered one before. -/
  entries_increasing : s.entries.Pairwise fun a b => a.timestamp < b.timestamp
  /-- An event that is about to enter is later than the lane. -/
  entering_latest : ∀ d lane, s.stage = .flushed d → s.histories = some lane →
    ∀ event ∈ lane, event.timestamp < d.payload.timestamp
  /-- What is committed has been published. -/
  committed_published : s.committed ⊆ s.published
  trip_committed : ∀ trip, s.trips = some trip → ∃ solve ∈ s.committed, solve.trip = trip

end Pipeline

section Runs

variable {allowed : Payload P → Prop} {s : Pipeline E P}

theorem Runs.ordered (h : Runs c allowed .new s) : s.Ordered := by
  induction h with
  | refl => exact Pipeline.ordered_new
  | tail _ hstep ih => exact ih.step hstep

theorem Runs.committing (h : Runs c allowed .new s) : s.Committing := by
  induction h with
  | refl => exact Pipeline.committing_new
  | tail _ hstep ih => exact ih.step hstep

theorem Runs.covered (hhistory : 1 ≤ c.history)
    (hallowed : ∀ payload, allowed payload → payload.timestamp.WholeMicros)
    (h : Runs c allowed .new s) : s.Covered := by
  induction h with
  | refl => exact Pipeline.covered_new
  | tail hrun hstep ih => exact ih.step hallowed (Runs.writing hhistory hrun) hstep

/-- What has entered a lane is done. -/
theorem Runs.entries_done (h : Runs c allowed .new s) :
    ∀ event ∈ s.entries, ∃ payload, (payload, .done) ∈ s.returned ∧ payload.asEvent = event := by
  induction h with
  | refl => simp [Pipeline.new]
  | tail _ hstep ih =>
    intro event hevent
    obtain ⟨hentries, hsubset⟩ | ⟨d, -, hentries, hreturned⟩ := Pipeline.entries_cases hstep
    · rw [hentries] at hevent
      obtain ⟨payload, hdone, hsame⟩ := ih event hevent
      exact ⟨payload, hsubset hdone, hsame⟩
    · rw [hentries] at hevent
      rw [hreturned]
      rcases List.mem_append.mp hevent with hevent | hevent
      · obtain ⟨payload, hdone, hsame⟩ := ih event hevent
        exact ⟨payload, List.mem_append_left _ hdone, hsame⟩
      · rw [List.mem_singleton.mp hevent]
        exact ⟨d.payload, List.mem_append_right _ (List.mem_singleton_self _), rfl⟩

/-- Events enter lanes in the order of their times. -/
theorem Runs.entries_increasing (hwindow : 1 ≤ c.contextWindow) (hhistory : 1 ≤ c.history)
    (hallowed : ∀ payload, allowed payload → payload.timestamp.WholeMicros)
    (h : Runs c allowed .new s) : s.entries.Pairwise fun a b => a.timestamp < b.timestamp := by
  induction h with
  | refl => exact List.Pairwise.nil
  | tail hrun hstep ih =>
    obtain ⟨hentries, -⟩ | ⟨d, hstage, hentries, -⟩ := Pipeline.entries_cases hstep
    · rwa [hentries]
    · rw [hentries]
      refine List.pairwise_append.mpr ⟨ih, List.pairwise_singleton _ _, fun a ha b hb => ?_⟩
      rw [List.mem_singleton.mp hb]
      obtain ⟨payload, hdone, rfl⟩ := Runs.entries_done hrun a ha
      -- the gate is shut behind what has entered
      obtain ⟨stored, -, hload⟩ := (Runs.covered hhistory hallowed hrun).done payload hdone
      have hkept : payload.timestamp.Kept :=
        DateTime.WholeMicros.kept ⟨_, StoredEvent.load_eq_some hload⟩
      exact (Runs.guarded hwindow hhistory hrun hkept hdone).admitted d (by rw [hstage]; rfl)

end Runs

/-- A step that finishes an event at its start archives nothing. -/
theorem Step.archived_eq {allowed : Payload P → Prop} {s s' : Pipeline E P}
    (h : Step c allowed s s') {d : Dispatch P} (hstage : s.stage = .started d)
    {outcome : Processed} (hfinished : s'.stage = .finished d outcome) :
    s'.archived = s.archived := by
  cases h with
  | warm d' lane hstage' hlane hwarmed =>
    exact Pipeline.archived_gate c { s with histories := some lane } lane d'
  | gate d' lane hstage' hlane => exact Pipeline.archived_gate c s lane d'
  | append => cases hstage.symm.trans hfinished
  | _ => rfl

/-- An event that is newer than all that is archived is not dropped. -/
theorem Pipeline.Covered.not_dropped {allowed : Payload P → Prop} {s s' : Pipeline E P}
    (hs' : s'.Covered) (h : Step c allowed s s') {d : Dispatch P} (hstage : s.stage = .started d)
    (hnewest : ∀ stored ∈ s.archived, ∀ event, stored.load = some event →
      event.timestamp < d.payload.timestamp) (reason : String) :
    s'.stage ≠ .finished d (.dropped reason) := by
  intro hdropped
  obtain ⟨stored, hstored, event, hload, hle⟩ :=
    hs'.dropped d.payload reason (hs'.finished d _ hdropped)
  rw [h.archived_eq hstage hdropped] at hstored
  exact (hnewest stored hstored event hload).not_ge hle

/-- **Lanes are safe** through any failures, evictions and restarts, with times in whole
microseconds, a context, and an archive that does not let go of what it was given last. -/
theorem lane_safety (c : Settings) (vehicle : VehicleId) (hwindow : 1 ≤ c.contextWindow)
    (hhistory : 1 ≤ c.history) {s : Pipeline E P}
    (h : Runs c (fun payload => payload.vehicleId = vehicle ∧ payload.timestamp.WholeMicros)
      .new s) :
    s.LaneSafe c fun payload => payload.vehicleId = vehicle ∧ payload.timestamp.WholeMicros := by
  have hordered := Runs.ordered h
  have hcommitting := Runs.committing h
  have hcovered := Runs.covered hhistory (fun _ hallowed => hallowed.2) h
  exact
    { done_archived := fun payload hdone => hcovered.done payload (hcovered.acked hdone)
      newest_passes := fun d hstage hnewest s' hstep reason =>
        (hcovered.step (fun _ hallowed => hallowed.2) (Runs.writing hhistory h) hstep).not_dropped
          hstep hstage hnewest reason
      dropped_covered := hcovered.dropped
      entries_increasing :=
        Runs.entries_increasing hwindow hhistory (fun _ hallowed => hallowed.2) h
      entering_latest := fun d lane hstage hlane =>
        hordered.before d lane (by rw [hstage]; rfl) hlane
      committed_published := hcommitting.committed
      trip_committed := hcommitting.trips }

/-- An observation at a whole microsecond. -/
def wholeMicrosecond : Payload Milestone :=
  ⟨⟨1⟩, ⟨1775000000, 500000, by decide, by decide⟩, ⟨30⟩⟩

/-- An observation of the same vehicle, a second later. -/
def secondLater : Payload Milestone :=
  ⟨⟨1⟩, ⟨1775000001, 500000, by decide, by decide⟩, ⟨45⟩⟩

/-- An event of a whole microsecond is done in a lane that is safe. -/
theorem lane_safety_wholeMicrosecond :
    ∃ s : Pipeline ℕ Milestone, s.returned = [(wholeMicrosecond, .done)] ∧
      s.LaneSafe defaultSettings fun payload =>
        payload.vehicleId = ⟨1⟩ ∧ payload.timestamp.WholeMicros := by
  have hallowed : wholeMicrosecond.vehicleId = ⟨1⟩ ∧ wholeMicrosecond.timestamp.WholeMicros :=
    ⟨rfl, 1775000000000500, by decide +kernel⟩
  obtain ⟨s, hrun, -, -, -, hreturned, -⟩ := exists_done (E := ℕ) defaultSettings
    (fun payload => payload.vehicleId = ⟨1⟩ ∧ payload.timestamp.WholeMicros) hallowed
  exact ⟨s, hreturned, lane_safety defaultSettings ⟨1⟩ (by decide) (by decide) hrun⟩

end Routers
