import Routers.Realtime.Lane

/-!
# Redelivery

An event whose acknowledgement was lost is delivered again.  If it was done, the gate is shut for
it: in memory by the event itself, and after an eviction or a restart by its archived form.  That
form is in microseconds, so the gate is open again for an event with a fraction of one.  And there
is a last second: what is archived in the leap second behind it cannot be read back, and from then
on no event of the vehicle gets as far as the gate.

## Main definitions

* `Idempotent` — an event that is done is dropped from then on.
* `Pipeline.Legible` — what is archived, or on its way, can be read back.

## Main results

* `Runs.legible` — the archive can be read back if the events that are delivered can.
* `idempotent_iff` — **redelivery is idempotent exactly if nothing is cut off the time of the event,
  and all of its vehicle can be read back.**

## References

`src/libs/routers_realtime/bin/orchestrator.rs` and `src/libs/routers_realtime/src/event.rs`.
-/

namespace Routers

variable {E P : Type} {c : Settings} [Geometry P] [DecidableEq P]

/-- An event that is done is dropped from then on, whatever events of its vehicle there are besides:
whenever it is delivered again, the pipeline can go on to drop it, and whatever the pipeline returns
of it is a drop; and it is neither solved, nor published, nor archived again. -/
def Idempotent (E : Type) (c : Settings) (events : Payload P → Prop) (payload : Payload P) :
    Prop :=
  ∀ s : Pipeline E P, Runs c (fun other => other = payload ∨ events other) .new s →
    ∀ before after, s.returned = before ++ (payload, .done) :: after →
      (∀ d, s.stage = .started d → d.payload = payload → ∃ s' reason,
        Step c (fun other => other = payload ∨ events other) s s' ∧
          s'.returned = s.returned ++ [(payload, .dropped reason)]) ∧
      (∀ r ∈ after, r.1 = payload → ∃ reason, r.2 = .dropped reason) ∧
      (∀ d, s.stage.admitted = some d → d.payload ≠ payload) ∧
      ∀ entry ∈ s.queue, entry.1 ≠ payload.asEvent

/-! ### Reading the archive back -/

section Legible

omit [Geometry P] [DecidableEq P]

theorem RawEvent.exists_load {event : RawEvent P} :
    (∃ loaded, event.store.load = some loaded) ↔ event.timestamp.Readable := by
  rw [DateTime.readable_iff]
  constructor
  · rintro ⟨loaded, hloaded⟩
    exact ⟨loaded.timestamp, StoredEvent.load_eq_some hloaded⟩
  · rintro ⟨timestamp, htime⟩
    exact ⟨⟨event.vehicleId, event.point, timestamp⟩, by
      rw [StoredEvent.load, RawEvent.store, htime, Option.map_some]⟩

/-- What is archived can be read back, and what is on its way will be. -/
structure Pipeline.Legible (s : Pipeline E P) : Prop where
  dispatch : ∀ d, s.stage.dispatch = some d → d.payload.timestamp.Readable
  queue : ∀ entry ∈ s.queue, entry.1.timestamp.Readable
  archive : ∀ stored ∈ s.archive, ∃ event, stored.load = some event

/-- A lane can be read back from an archive that can. -/
theorem Settings.exists_warmed (c : Settings) {archive : List (StoredEvent P)}
    (h : ∀ stored ∈ archive, ∃ event, stored.load = some event) :
    ∃ lane, c.warmed archive = some lane := by
  have hmapM : ∀ l : List (StoredEvent P), (∀ stored ∈ l, ∃ event, stored.load = some event) →
      ∃ events, l.mapM StoredEvent.load = some events := by
    intro l hl
    induction l with
    | nil => exact ⟨[], rfl⟩
    | cons stored l ih =>
      obtain ⟨event, hevent⟩ := hl stored List.mem_cons_self
      obtain ⟨events, hevents⟩ := ih fun stored h => hl stored (List.mem_cons_of_mem _ h)
      exact ⟨event :: events, by rw [List.mapM_cons, hevent, hevents]; rfl⟩
  obtain ⟨events, hevents⟩ := hmapM (archive.reverse.take (c.contextWindow * 3))
    fun stored hstored => h stored (List.mem_reverse.mp (List.mem_of_mem_take hstored))
  exact ⟨sortByTimestamp events, by rw [warmed, getMany, hevents, Option.map_some]⟩

/-- But not from one whose last event cannot be. -/
theorem Settings.warmed_eq_none (c : Settings) (hwindow : 1 ≤ c.contextWindow)
    {archive : List (StoredEvent P)} {stored : StoredEvent P}
    (hlast : archive.getLast? = some stored) (hload : stored.load = none) :
    c.warmed archive = none := by
  rw [Option.eq_none_iff_forall_ne_some]
  intro lane hwarmed
  obtain ⟨event, -, hevent⟩ := (warmed_spec hwarmed).2.2 hwindow stored hlast
  cases hload.symm.trans hevent

end Legible

section Readable

variable {allowed : Payload P → Prop} {s s' : Pipeline E P}

theorem Pipeline.Legible.gate (hs : s.Legible) (lane : List (RawEvent P)) {d : Dispatch P}
    (hstage : s.stage = .started d) : (s.gate c lane d).Legible := by
  have hd : ∀ d', some d = some d' → d'.payload.timestamp.Readable := fun d' hd' =>
    hs.dispatch d' (by rw [hstage]; exact hd')
  unfold Pipeline.gate
  split
  · exact { hs with dispatch := hd }
  · exact { hs with dispatch := hd }

theorem Pipeline.Legible.step (hallowed : ∀ payload, allowed payload → payload.timestamp.Readable)
    (hs : s.Legible) (h : Step c allowed s s') : s'.Legible := by
  -- most steps stay with the event
  have hstay : ∀ stage : Stage E P, stage.dispatch = s.stage.dispatch →
      ∀ d, stage.dispatch = some d → d.payload.timestamp.Readable :=
    fun stage hstage d hd => hs.dispatch d (hstage.symm.trans hd)
  cases h with
  | deliver d hstage hd =>
    refine { hs with dispatch := fun d' hd' => ?_ }
    cases hd'
    exact hallowed _ hd
  | warm d lane hstage hlane hwarmed =>
    exact Legible.gate (s := { s with histories := some lane }) { hs with } lane hstage
  | gate d lane hstage hlane => exact hs.gate lane hstage
  | noMatch d context hstage | solved d context diff trip hstage | publish d solve hstage
  | commit d solve hstage | enter d hstage =>
    exact { hs with dispatch := hstay _ (by rw [hstage]; rfl) }
  | send d hstage =>
    refine { hs with dispatch := hstay _ (by rw [hstage]; rfl), queue := fun entry hentry => ?_ }
    rcases List.mem_append.mp hentry with hentry | hentry
    · exact hs.queue entry hentry
    · rw [List.mem_singleton.mp hentry]
      exact hs.dispatch d (by rw [hstage]; rfl)
  | append entry kept hentry hmin hle =>
    refine { hs with archive := fun stored hstored => ?_ }
    rcases List.mem_append.mp (List.mem_of_mem_drop hstored) with hstored | hstored
    · exact hs.archive stored hstored
    · rw [List.mem_singleton.mp hstored]
      exact RawEvent.exists_load.mpr
        (hs.queue entry (List.mem_of_mem_take (List.mem_of_getElem? hentry)))
  | flush hwritten =>
    exact { hs with
      dispatch := hstay _ (Stage.dispatch_report _ _)
      queue := fun entry hentry => hs.queue entry (List.mem_of_mem_drop hentry) }
  | fail d hstage =>
    exact { hs with dispatch := hstay _ (Stage.dispatch_of_admitted hstage).symm }
  | ack | ackLost => exact { hs with dispatch := by simp [Stage.dispatch] }
  | restart => exact { hs with dispatch := by simp [Stage.dispatch], queue := by simp }
  | _ => exact { hs with }

/-- **The archive can be read back** if the events that are delivered can. -/
theorem Runs.legible (hallowed : ∀ payload, allowed payload → payload.timestamp.Readable)
    (h : Runs c allowed .new s) : s.Legible := by
  induction h with
  | refl => exact ⟨by simp [Pipeline.new, Stage.dispatch], by simp [Pipeline.new],
      by simp [Pipeline.new]⟩
  | tail _ hstep ih => exact ih.step hallowed hstep

end Readable

section Redelivery

variable {allowed : Payload P → Prop} {s : Pipeline E P} {time : DateTime}

/-- What is done is not done again. -/
theorem Runs.returned_after (hwindow : 1 ≤ c.contextWindow) (hhistory : 1 ≤ c.history)
    (h : Runs c allowed .new s) {payload : Payload P} (hkept : payload.timestamp.Kept)
    {before after : List (Payload P × Processed)}
    (hreturned : s.returned = before ++ (payload, .done) :: after) :
    ∀ r ∈ after, r.1 = payload → ∃ reason, r.2 = .dropped reason := by
  induction h generalizing before after with
  | refl =>
    rw [show (Pipeline.new : Pipeline E P).returned = [] from rfl] at hreturned
    exact absurd hreturned.symm (by simp)
  | @tail s s' hrun hstep ih =>
    -- what a step returns comes last
    have hlast : ∀ result, s'.returned = s.returned ++ [result] →
        (result.1 = payload → (payload, .done) ∈ s.returned →
          ∃ reason, result.2 = .dropped reason) →
        ∀ r ∈ after, r.1 = payload → ∃ reason, r.2 = .dropped reason := by
      intro result heq hresult r hr hrp
      obtain rfl | ⟨earlier, last, rfl⟩ := List.eq_nil_or_concat' after
      · cases hr
      · rw [heq, ← List.cons_append, ← List.append_assoc] at hreturned
        obtain ⟨hbefore, hsame⟩ := List.append_inj' hreturned rfl
        cases hsame
        rcases List.mem_append.mp hr with hr | hr
        · exact ih hbefore r hr hrp
        · rw [List.mem_singleton.mp hr] at hrp ⊢
          exact hresult hrp (by rw [hbefore]; simp)
    obtain heq | ⟨d, -, heq⟩ | ⟨d, hstage, rfl⟩ := Pipeline.returned_cases hstep
    · exact ih (heq.symm.trans hreturned)
    · exact hlast _ heq fun _ _ => ⟨_, rfl⟩
    · refine hlast (d.payload, .done) rfl fun hsame hdone => ?_
      -- but the gate is shut for what is done
      have hguarded := Runs.guarded hwindow hhistory hrun hkept hdone
      have hlt := hguarded.admitted d (by rw [hstage]; rfl)
      exact absurd (congrArg Payload.timestamp hsame).symm hlt.ne

/-- An event no later than a lane is dropped at its gate. -/
theorem Pipeline.Guarded.returned_gate (hs : s.Guarded time)
    {lane : List (RawEvent P)} (hlane : s.histories = some lane) {d : Dispatch P}
    (hle : d.payload.timestamp ≤ time) :
    (s.gate c lane d).returned = s.returned ++ [(d.payload, .dropped "stale_or_duplicate")] := by
  obtain ⟨last, hlast, htime⟩ := hs.lane lane hlane
  obtain ⟨-, -, -, heq⟩ | ⟨hlater, -⟩ := Pipeline.gate_cases c s lane d
  · rw [heq]
    rfl
  · exact absurd (hlater last hlast) (hle.trans htime).not_gt

/-- An event that is done can be dropped when it is delivered again. -/
theorem Runs.exists_dropped (hwindow : 1 ≤ c.contextWindow)
    (hallowed : ∀ payload, allowed payload → payload.timestamp.Readable)
    (h : Runs c allowed .new s) {payload : Payload P} (hguarded : s.Guarded payload.timestamp)
    {d : Dispatch P} (hstage : s.stage = .started d) (hsame : d.payload = payload) :
    ∃ s' reason, Step c allowed s s' ∧
      s'.returned = s.returned ++ [(payload, .dropped reason)] := by
  subst hsame
  cases hlane : s.histories with
  | some lane =>
    exact ⟨_, _, Step.gate d lane hstage hlane, hguarded.returned_gate hlane le_rfl⟩
  | none =>
    obtain ⟨lane, hwarmed⟩ := c.exists_warmed (Runs.legible hallowed h).archive
    exact ⟨_, _, Step.warm d lane hstage hlane hwarmed,
      (hguarded.warmed hwindow hwarmed).returned_gate rfl le_rfl⟩

/-- An event gets past the gate of a lane read back that ends before it. -/
theorem Step.pass (allowed : Payload P → Prop) {d : Dispatch P} (hstage : s.stage = .started d)
    (hlane : s.histories = none)
    {lane : List (RawEvent P)} (hwarmed : c.warmed s.archive = some lane)
    (hlater : ∀ last, lane.getLast? = some last → last.timestamp < d.payload.timestamp) :
    Step c allowed s { s with
      stage := .solving d (c.createContext s.trips lane d.payload)
      histories := some lane } := by
  have hstep : Step c allowed s _ := Step.warm d lane hstage hlane hwarmed
  obtain ⟨last, hlast, hle, -⟩ | ⟨-, heq⟩ :=
    Pipeline.gate_cases c { s with histories := some lane } lane d
  · exact absurd (hlater last hlast) hle.not_gt
  · rwa [heq] at hstep

/-- An event is archived by a writer with nothing else to write. -/
theorem runs_flushed (c : Settings) (allowed : Payload P → Prop) {d : Dispatch P}
    (hstage : s.stage = .archiving d) (hqueue : s.queue = []) (hbatch : s.batch = 0) :
    Runs c allowed s { s with
      stage := .flushed d
      queue := []
      batch := 0
      written := 0
      archive := (s.archive ++ [d.payload.asEvent.store]).drop
        (s.archive.length + 1 - min c.history (s.archive.length + 1))
      archived := s.archived ++ [d.payload.asEvent.store]
      sends := s.sends + 1 } := by
  let sent : Pipeline E P := { s with
    stage := .waiting d s.sends
    queue := s.queue ++ [(d.payload.asEvent, s.sends)]
    sends := s.sends + 1 }
  let collected : Pipeline E P := { sent with batch := 1, written := 0 }
  let appended : Pipeline E P := { collected with
    written := 1
    archive := (s.archive ++ [d.payload.asEvent.store]).drop
      (s.archive.length + 1 - min c.history (s.archive.length + 1))
    archived := s.archived ++ [d.payload.asEvent.store] }
  have hsent : Step c allowed s sent := Step.send d hstage
  have hcollected : Step c allowed sent collected := Step.collect 1 hbatch (by simp [sent])
  have hentry : (collected.queue.take collected.batch)[collected.written]?
      = some (d.payload.asEvent, s.sends) := by
    simp [collected, sent, hqueue]
  have happended : Step c allowed collected appended :=
    Step.append _ _ hentry le_rfl (Nat.min_le_right _ _)
  have hflushed : Step c allowed appended _ := Step.flush rfl
  have hreport : appended.stage.report ((appended.queue.take appended.batch).map Prod.snd)
      = .flushed d := by
    simp [appended, collected, sent, hqueue, Stage.report]
  have hempty : appended.queue.drop appended.batch = [] := by
    simp [appended, collected, sent, hqueue]
  rw [hreport, hempty] at hflushed
  exact (((Relation.ReflTransGen.single hsent).tail hcollected).tail happended).tail hflushed

/-- An event that gets past the lane read back can be done, with nothing else going on. -/
theorem exists_done_after (c : Settings) (allowed : Payload P → Prop) (hstage : s.stage = .idle)
    (hqueue : s.queue = []) (hbatch : s.batch = 0) {payload : Payload P}
    (hallowed : allowed payload) {lane : List (RawEvent P)}
    (hwarmed : c.warmed s.archive = some lane)
    (hlater : ∀ last, lane.getLast? = some last → last.timestamp < payload.timestamp) :
    ∃ s' : Pipeline E P, Runs c allowed s s' ∧ s'.stage = .idle ∧ s'.queue = [] ∧ s'.batch = 0 ∧
      s'.returned = s.returned ++ [(payload, .done)] ∧
      s'.archive = (s.archive ++ [payload.asEvent.store]).drop
        (s.archive.length + 1 - min c.history (s.archive.length + 1)) := by
  let d : Dispatch P := ⟨payload, 0⟩
  let evicted : Pipeline E P := { s with histories := none }
  let started : Pipeline E P := { evicted with stage := .started d }
  let archiving : Pipeline E P := { started with stage := .archiving d, histories := some lane }
  have hevicted : Step c allowed s evicted := Step.evictLane
  have hstarted : Step c allowed evicted started := Step.deliver d hstage hallowed
  have hadmitted := Step.pass allowed (s := started) (d := d) rfl rfl hwarmed hlater
  have hbefore : Runs c allowed s archiving :=
    (((Relation.ReflTransGen.single hevicted).tail hstarted).tail hadmitted).tail
      (Step.noMatch d _ rfl)
  have hflushed := runs_flushed c allowed (s := archiving) (d := d) rfl hqueue hbatch
  exact ⟨_, ((hbefore.trans hflushed).tail (Step.enter d rfl)).tail (Step.ack d .done rfl), rfl,
    rfl, rfl, rfl, rfl⟩

omit [Geometry P] [DecidableEq P] in
theorem warmed_nil (c : Settings) : c.warmed ([] : List (StoredEvent P)) = some [] := by
  simp [Settings.warmed, getMany, sortByTimestamp]

omit [Geometry P] [DecidableEq P] in
theorem warmed_singleton (hwindow : 1 ≤ c.contextWindow) {stored : StoredEvent P}
    {event : RawEvent P} (hload : stored.load = some event) :
    c.warmed [stored] = some [event] := by
  have htake : [stored].reverse.take (c.contextWindow * 3) = [stored] :=
    List.take_of_length_le (by simp; omega)
  rw [Settings.warmed, getMany, htake]
  simp [hload, sortByTimestamp]

/-- An event can be done as the first of its vehicle. -/
theorem exists_done (c : Settings) (allowed : Payload P → Prop) {payload : Payload P}
    (hallowed : allowed payload) :
    ∃ s : Pipeline E P, Runs c allowed .new s ∧ s.stage = .idle ∧ s.queue = [] ∧ s.batch = 0 ∧
      s.returned = [(payload, .done)] ∧
      s.archive = [payload.asEvent.store].drop (1 - min c.history 1) :=
  exists_done_after c allowed (s := .new) rfl rfl rfl hallowed (warmed_nil c) (by simp)

omit [Geometry P] [DecidableEq P] in
/-- An archive that keeps any events keeps the last. -/
theorem getLast?_kept (hhistory : 1 ≤ c.history) (archive : List (StoredEvent P))
    (stored : StoredEvent P) :
    ((archive ++ [stored]).drop
      (archive.length + 1 - min c.history (archive.length + 1))).getLast? = some stored := by
  rw [List.getLast?_drop, if_neg, List.getLast?_concat]
  rw [List.length_append, List.length_singleton]
  omega

/-- Where the archived form of an event is no lane, or one that ends before it, the event gets past
the gate again. -/
theorem not_idempotent (E : Type) {events : Payload P → Prop} {payload : Payload P}
    (h : ∃ lane, c.warmed ([payload.asEvent.store].drop (1 - min c.history 1)) = some lane ∧
      ∀ last, lane.getLast? = some last → last.timestamp < payload.timestamp) :
    ¬ Idempotent E c events payload := by
  intro hidempotent
  obtain ⟨lane, hwarmed, hlater⟩ := h
  obtain ⟨s, hrun, hstage, -, -, hreturned, harchive⟩ :=
    exists_done (E := E) c (fun other => other = payload ∨ events other) (Or.inl rfl)
  let d : Dispatch P := ⟨payload, 0⟩
  let evicted : Pipeline E P := { s with histories := none }
  let started : Pipeline E P := { evicted with stage := .started d }
  have hevicted : Step c (fun other => other = payload ∨ events other) s evicted := Step.evictLane
  have hstarted : Step c (fun other => other = payload ∨ events other) evicted started :=
    Step.deliver d hstage (Or.inl rfl)
  have hpassed := Step.pass (c := c) (fun other => other = payload ∨ events other)
    (s := started) (d := d) rfl rfl (by rw [← hwarmed, ← harchive]) hlater
  have hafter := hidempotent _ (((hrun.tail hevicted).tail hstarted).tail hpassed) [] [] hreturned
  exact hafter.2.2.1 d rfl rfl

/-- With no lane, and none to be read back, nothing is returned. -/
theorem Step.returned_of_unread {allowed : Payload P → Prop} {s' : Pipeline E P} {d : Dispatch P}
    (hstage : s.stage = .started d) (hlane : s.histories = none)
    (hunread : c.warmed s.archive = none) (h : Step c allowed s s') :
    s'.returned = s.returned := by
  cases h with
  | warm d' lane _ _ hwarmed => cases hunread.symm.trans hwarmed
  | gate d' lane _ hsome => cases hlane.symm.trans hsome
  | enter d' hflushed => cases hstage.symm.trans hflushed
  | _ => rfl

/-- Once the archive cannot be read back, an event that is done is not dropped. -/
theorem not_idempotent_of_unread {events : Payload P → Prop} {payload : Payload P}
    {after : List (Payload P × Processed)}
    (hrun : Runs c (fun other => other = payload ∨ events other) .new s) (hidle : s.stage = .idle)
    (hreturned : s.returned = (payload, .done) :: after) (hunread : c.warmed s.archive = none) :
    ¬ Idempotent E c events payload := by
  intro hidempotent
  let evicted : Pipeline E P := { s with histories := none }
  let started : Pipeline E P := { evicted with stage := .started ⟨payload, 0⟩ }
  have hevicted : Step c (fun other => other = payload ∨ events other) s evicted := Step.evictLane
  have hstarted : Step c (fun other => other = payload ∨ events other) evicted started :=
    Step.deliver ⟨payload, 0⟩ hidle (Or.inl rfl)
  obtain ⟨s', reason, hstep, hdropped⟩ :=
    (hidempotent _ ((hrun.tail hevicted).tail hstarted) [] after hreturned).1 _ rfl rfl
  have hsame := Step.returned_of_unread (s := started) rfl rfl hunread hstep
  rw [hdropped] at hsame
  exact absurd (congrArg List.length hsame) (by simp)

/-- An event that cannot be read back ends the processing of its vehicle. -/
theorem not_idempotent_of_not_readable (E : Type) (hwindow : 1 ≤ c.contextWindow)
    (hhistory : 1 ≤ c.history) {events : Payload P → Prop} {payload other : Payload P}
    (hother : other = payload ∨ events other) (hunreadable : ¬ other.timestamp.Readable) :
    ¬ Idempotent E c events payload := by
  have hload : ∀ event : RawEvent P, ¬ event.timestamp.Readable → event.store.load = none :=
    fun event hevent => Option.eq_none_iff_forall_ne_some.mpr fun loaded hloaded =>
      hevent (RawEvent.exists_load.mp ⟨loaded, hloaded⟩)
  obtain ⟨s, hrun, hidle, hqueue, hbatch, hreturned, harchive⟩ :=
    exists_done (E := E) c (fun other => other = payload ∨ events other) (Or.inl rfl)
  have hlast : s.archive.getLast? = some payload.asEvent.store := by
    rw [harchive]
    exact getLast?_kept hhistory [] payload.asEvent.store
  by_cases hreadable : payload.timestamp.Readable
  · -- the event is done, and then the other one, which is later than all that can be read back
    obtain ⟨event, hevent⟩ := RawEvent.exists_load.mpr
      (show payload.asEvent.timestamp.Readable from hreadable)
    have hkept : s.archive = [payload.asEvent.store] := by
      rw [harchive, Nat.min_eq_right hhistory, Nat.sub_self, List.drop_zero]
    have hwarmed : c.warmed s.archive = some [event] := by
      rw [hkept]
      exact warmed_singleton hwindow hevent
    obtain ⟨s', hrun', hidle', -, -, hreturned', harchive'⟩ := exists_done_after c
      (fun other => other = payload ∨ events other) hidle hqueue hbatch hother hwarmed
      (fun last hlast => by
        cases hlast
        exact DateTime.lt_of_not_readable hunreadable (StoredEvent.load_eq_some hevent))
    rw [hreturned] at hreturned'
    refine not_idempotent_of_unread (hrun.trans hrun') hidle' hreturned' ?_
    rw [harchive']
    exact c.warmed_eq_none hwindow (getLast?_kept hhistory s.archive other.asEvent.store)
      (hload _ hunreadable)
  · exact not_idempotent_of_unread hrun hidle hreturned
      (c.warmed_eq_none hwindow hlast (hload _ hreadable))

end Redelivery

/-- **Redelivery is idempotent exactly if nothing is cut off the time of the event, and all events
of its vehicle can be read back**, in so far as there is a lane and an archive. -/
theorem idempotent_iff [Inhabited P] (E : Type) (c : Settings) (events : Payload P → Prop)
    (message : WirePayload P) :
    Idempotent E c events (Payload.decode message) ↔ 1 ≤ c.contextWindow ∧ 1 ≤ c.history ∧
      (Payload.decode message).timestamp.Kept ∧
      ∀ other, other = Payload.decode message ∨ events other → other.timestamp.Readable := by
  generalize Payload.decode message = payload
  constructor
  · intro h
    obtain hhistory | hhistory := Nat.eq_zero_or_pos c.history
    · refine absurd h (not_idempotent E ⟨[], ?_, by simp⟩)
      simp [hhistory, Settings.warmed, getMany, sortByTimestamp]
    obtain hwindow | hwindow := Nat.eq_zero_or_pos c.contextWindow
    · refine absurd h (not_idempotent E ⟨[], ?_, by simp⟩)
      simp [hwindow, Settings.warmed, getMany, sortByTimestamp]
    have hreadable : ∀ other, other = payload ∨ events other → other.timestamp.Readable := by
      intro other hother
      by_contra hunreadable
      exact not_idempotent_of_not_readable E hwindow hhistory hother hunreadable h
    refine ⟨hwindow, hhistory, ?_, hreadable⟩
    -- otherwise the event that is read back has lost what was cut off
    by_contra hcut
    obtain ⟨event, hevent⟩ := RawEvent.exists_load.mpr
      (show payload.asEvent.timestamp.Readable from hreadable payload (Or.inl rfl))
    refine not_idempotent E ⟨[event], ?_, fun last hlast => ?_⟩ h
    · rw [Nat.min_eq_right hhistory, Nat.sub_self, List.drop_zero]
      exact warmed_singleton hwindow hevent
    · cases hlast
      exact DateTime.lt_of_fromMicros hcut (StoredEvent.load_eq_some hevent)
  · rintro ⟨hwindow, hhistory, hkept, hreadable⟩ s hrun before after hreturned
    have hguarded := Runs.guarded hwindow hhistory hrun hkept (by rw [hreturned]; simp)
    refine ⟨fun d hstage hsame => ?_, Runs.returned_after hwindow hhistory hrun hkept hreturned,
      fun d hd hsame => ?_, fun entry hentry hsame => ?_⟩
    · exact Runs.exists_dropped hwindow hreadable hrun hguarded hstage hsame
    · exact (hguarded.admitted d hd).ne (congrArg Payload.timestamp hsame).symm
    · exact (hguarded.queue entry hentry).ne (congrArg RawEvent.timestamp hsame).symm

/-- The orchestrator as it is set by default. -/
def defaultSettings : Settings where
  gap := 120 * 1000000000
  jumpDistance := 2000
  contextWindow := 10
  history := 25

/-- An observation half a microsecond past a whole one. -/
def subMicrosecond : WirePayload Milestone := ⟨1, some ⟨1775000000, 500⟩, some ⟨30⟩⟩

/-- An event with a fraction of a microsecond gets past the gate again, with no other event. -/
theorem subMicrosecond_not_idempotent :
    ¬ ∀ message : WirePayload Milestone,
      Idempotent ℕ defaultSettings (fun _ => False) (Payload.decode message) := by
  intro h
  refine not_idempotent ℕ ⟨[⟨⟨1⟩, ⟨30⟩, ⟨1775000000, 0, by decide, by decide⟩⟩], ?_, ?_⟩
    (h subMicrosecond)
  · decide +kernel
  · intro last hlast
    cases hlast
    decide +kernel

end Routers
