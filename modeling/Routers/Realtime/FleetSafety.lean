import Routers.Realtime.FleetRecovery

/-!
# Safety of the fleet

Whatever the parts of the fleet do, and in any order, no message is lost and none is let go of
twice: it is with the broker until what it tells is archived, or something later of its vehicle is.
A vehicle is with one worker of the fleet at most, and gets its messages in the order of pulling.

## Main definitions

* `Fleet.Accounted` — the broker's books.
* `Pod.underway`, `Pod.Queued` — the messages of a vehicle between its forwarder and its worker.
* `Fleet.Holds`, `Fleet.Writes` — who has to do with a vehicle.

## Main results

* `fleet_exactly_once` — **every message is processed, and takes effect once.**
* `fleet_exclusive` — **a vehicle is one worker's.**
* `fleet_simulates` — **the fleet does to a vehicle what its lane does.**
* `fleet_in_order` — **a vehicle's messages stay in order**, in bounded channels.

## References

`src/libs/routers_realtime/bin/orchestrator.rs` and `src/libs/routers_realtime/src/event.rs`.
-/

namespace Routers

variable {E P W : Type} {D : Deployment P W} {allowed : Payload P → Prop} {f : Fleet E P W}

/-! ### The broker's books -/

/-- An acknowledgement is of a message that cannot be decoded, or of what the pipeline has made of
it. -/
def Fleet.Justified (D : Deployment P W) (f : Fleet E P W) (message : Message W) :
    Option Processed → Prop
  | none => D.decode message.content = none
  | some outcome => ∃ payload, D.decode message.content = some payload ∧
      (payload, outcome) ∈ (f.records payload.vehicleId).acked

/-- The broker's books: what has been published is stored or settled, each message once, and is
settled for a reason. -/
structure Fleet.Accounted (D : Deployment P W) (f : Fleet E P W) : Prop where
  sequence : ∀ message ∈ f.log,
    message.revision ≤ f.sequence (streamIndex message.partition D.streams)
  nodup : f.log.Nodup
  perm : f.log.Perm (f.stored ++ f.settled.map Prod.fst)
  acks : ∀ message outcome, (message, outcome) ∈ f.acks → f.Justified D message outcome
  settled : ∀ message outcome, (message, outcome) ∈ f.settled → f.Justified D message outcome

namespace Fleet

theorem accounted_new : (new : Fleet E P W).Accounted D where
  sequence := by simp [new]
  nodup := List.nodup_nil
  perm := List.Perm.nil
  acks := by simp [new]
  settled := by simp [new]

theorem Justified.mono {f' : Fleet E P W}
    (hacked : ∀ v, (f.records v).acked ⊆ (f'.records v).acked) {message : Message W}
    {outcome : Option Processed} (h : f.Justified D message outcome) :
    f'.Justified D message outcome := by
  cases outcome with
  | none => exact h
  | some outcome =>
    obtain ⟨payload, hdecode, hmem⟩ := h
    exact ⟨payload, hdecode, hacked _ hmem⟩

/-- What a pod and its workers do is nothing to the books. -/
theorem Accounted.congr (hf : f.Accounted D) {f' : Fleet E P W} (hstored : f'.stored = f.stored)
    (hsequence : f'.sequence = f.sequence) (hlog : f'.log = f.log) (hacks : f'.acks = f.acks)
    (hsettled : f'.settled = f.settled)
    (hacked : ∀ v, (f.records v).acked ⊆ (f'.records v).acked) : f'.Accounted D where
  sequence := by rw [hlog, hsequence]; exact hf.sequence
  nodup := by rw [hlog]; exact hf.nodup
  perm := by rw [hlog, hstored, hsettled]; exact hf.perm
  acks message outcome hmem := (hf.acks message outcome (hacks ▸ hmem)).mono hacked
  settled message outcome hmem := (hf.settled message outcome (hsettled ▸ hmem)).mono hacked

theorem acked_subset_setRecord {v : VehicleId} {record : Record E P}
    (h : (f.records v).acked ⊆ record.acked) (u : VehicleId) :
    (f.records u).acked ⊆ ((f.setRecord v record).records u).acked := by
  unfold setRecord
  dsimp only
  obtain rfl | hne := eq_or_ne u v
  · rwa [Function.update_self]
  · rw [Function.update_of_ne hne]
    exact List.Subset.refl _

theorem Accounted.setRecord (hf : f.Accounted D) {v : VehicleId} {record : Record E P}
    (h : (f.records v).acked ⊆ record.acked) : (f.setRecord v record).Accounted D :=
  hf.congr rfl rfl rfl rfl rfl (acked_subset_setRecord h)

theorem Accounted.setPod (hf : f.Accounted D) (o : ℕ) (pod : Pod E P W) :
    (f.setPod o pod).Accounted D :=
  hf.congr rfl rfl rfl rfl rfl fun _ => List.Subset.refl _

theorem Accounted.acknowledge (hf : f.Accounted D) {message : Message W}
    {outcome : Option Processed} (h : f.Justified D message outcome) :
    (f.acknowledge message outcome).Accounted D where
  sequence := hf.sequence
  nodup := hf.nodup
  perm := hf.perm
  acks message' outcome' hmem := by
    rcases List.mem_append.mp hmem with hmem | hmem
    · exact hf.acks message' outcome' hmem
    · obtain ⟨rfl, rfl⟩ := Prod.mk.inj (List.mem_singleton.mp hmem)
      exact h
  settled := hf.settled

/-- A message that is let go of moves from the stream to what is settled. -/
theorem Accounted.settle [DecidableEq W] (hf : f.Accounted D) {message : Message W}
    {outcome : Option Processed} (h : f.Justified D message outcome) :
    (f.settle message outcome).Accounted D := by
  unfold Fleet.settle
  split
  · rename_i hstored
    refine { sequence := hf.sequence, nodup := hf.nodup, acks := hf.acks, perm := ?_, settled := ?_ }
    · refine hf.perm.trans (((List.perm_cons_erase hstored).append_right _).trans ?_)
      rw [List.map_append, ← List.append_assoc]
      exact (List.perm_append_singleton _ _).symm
    · intro message' outcome' hmem
      rcases List.mem_append.mp hmem with hmem | hmem
      · exact hf.settled message' outcome' hmem
      · obtain ⟨rfl, rfl⟩ := Prod.mk.inj (List.mem_singleton.mp hmem)
        exact h
  · exact hf

end Fleet

section Accounts

variable [Geometry P] [DecidableEq P]

theorem Local.acked_gate (c : Settings) (s : Local E P) (lane : List (RawEvent P))
    (d : Dispatch P) : (s.gate c lane d).record.acked = s.record.acked := by
  unfold gate
  split <;> rfl

/-- The pipeline acknowledges nothing. -/
theorem WorkStep.acked_eq {c : Settings} {s s' : Local E P} (h : WorkStep c s s') :
    s'.record.acked = s.record.acked := by
  cases h with
  | warm d lane => exact Local.acked_gate c { s with histories := some lane } lane d
  | gate d lane => exact Local.acked_gate c s lane d
  | _ => rfl

variable [DecidableEq W]

theorem Fleet.Accounted.step {f' : Fleet E P W} (hrouted : f.Routed D allowed)
    (hf : f.Accounted D) (h : FleetStep D allowed f f') : f'.Accounted D := by
  cases h with
  | produce partition content hcontent =>
    have hjustified : ∀ {message outcome}, f.Justified D message outcome →
        Fleet.Justified D { f with
          stored := f.stored ++
            [⟨partition, f.sequence (streamIndex partition D.streams) + 1, content⟩]
          log := f.log ++
            [⟨partition, f.sequence (streamIndex partition D.streams) + 1, content⟩]
          sequence := Function.update f.sequence (streamIndex partition D.streams)
            (f.sequence (streamIndex partition D.streams) + 1) } message outcome :=
      fun h => h.mono fun _ => List.Subset.refl _
    refine ⟨fun message hmessage => ?_, ?_, ?_,
      fun message outcome hmem => hjustified (hf.acks message outcome hmem),
      fun message outcome hmem => hjustified (hf.settled message outcome hmem)⟩
    · dsimp only
      rcases List.mem_append.mp hmessage with hmessage | hmessage
      · have hle := hf.sequence message hmessage
        obtain heq | hne := eq_or_ne (streamIndex message.partition D.streams)
          (streamIndex partition D.streams)
        · rw [heq, Function.update_self]
          rw [heq] at hle
          exact hle.trans (Nat.le_succ _)
        · rwa [Function.update_of_ne hne]
      · rw [List.mem_singleton.mp hmessage, Function.update_self]
    · -- the place in the stream has not been taken
      refine List.nodup_append.mpr ⟨hf.nodup, List.nodup_singleton _, fun message hmessage => ?_⟩
      rintro _ hnew rfl
      have hle := hf.sequence message hmessage
      rw [List.mem_singleton.mp hnew] at hle
      exact absurd hle (Nat.not_succ_le_self _)
    · dsimp only
      refine (hf.perm.append_right _).trans ?_
      rw [List.append_assoc, List.append_assoc]
      exact List.perm_append_comm.append_left _
  | pull message payload pod hmessage hdecode hpod hfree => exact hf.setPod _ _
  | poison message hmessage hdecode hfree => exact hf.acknowledge hdecode
  | forward o partition delivery pod worker hpod hforwarding hworker hroom => exact hf.setPod _ _
  | receive o w delivery rest pod worker hpod hworker hidle hchannel => exact hf.setPod _ _
  | work o w d s hd hwork =>
    refine (hf.setPod o _).setRecord ?_
    rw [hwork.acked_eq]
    exact List.Subset.refl _
  | ack o w d outcome message hstage hmessage =>
    have hd : (f.worker o w).stage.dispatch = some d := by rw [hstage]; rfl
    obtain ⟨-, -, message', hmessage', hdecode, -⟩ := ((hrouted.pods o).workers w).hand d hd
    obtain rfl : message = message' := Option.some.inj (hmessage.symm.trans hmessage')
    refine ((hf.setPod o _).setRecord (List.subset_append_left _ _)).acknowledge
      ⟨d.payload, hdecode, ?_⟩
    unfold Fleet.setRecord
    dsimp only
    rw [Function.update_self]
    exact List.mem_append_right _ (List.mem_singleton_self _)
  | settle message outcome hack => exact hf.settle (hf.acks message outcome hack)
  | ackLost o w d outcome hstage => exact hf.setPod _ _
  | evictLane o w vehicle => exact hf.setPod _ _
  | evictTrip o w vehicle => exact hf.setPod _ _
  | collect o n hbatch hpos hle hn => exact hf.setPod _ _
  | append o node entry record kept hentry hrecord hmin hle =>
    subst hrecord
    exact (hf.setPod o _).setRecord (List.Subset.refl _)
  | retry o => exact hf.setPod _ _
  | flush o hwritten => exact hf.setPod _ _
  | restart o => exact hf.setPod _ _

theorem FleetRuns.accounted (h : FleetRuns D allowed .new f) : f.Accounted D := by
  induction h with
  | refl => exact Fleet.accounted_new
  | tail hrun hstep ih => exact ih.step (FleetRuns.routed hrun) hstep

/-- What has been published and is no longer stored is covered by an archived event of its vehicle,
if it is an event at all. -/
theorem FleetRuns.coveredBy (h : FleetRuns D allowed .new f) (hhistory : 1 ≤ D.settings.history)
    (hallowed : ∀ payload, allowed payload → payload.timestamp.WholeMicros) {message : Message W}
    {payload : Payload P} (hlog : message ∈ f.log) (hstored : message ∉ f.stored)
    (hdecode : D.decode message.content = some payload) :
    CoveredBy (f.records payload.vehicleId).archived payload.timestamp := by
  have hf := FleetRuns.accounted h
  have hcovered := Runs.covered hhistory
    (fun other hother => hallowed other (And.right hother)) (FleetRuns.lane_runs h payload.vehicleId)
  obtain ⟨⟨_, outcome⟩, hmem, rfl⟩ := List.mem_map.mp
    ((List.mem_append.mp (hf.perm.mem_iff.mp hlog)).resolve_left hstored)
  have hjustified := hf.settled _ _ hmem
  cases outcome with
  | none => exact absurd (hdecode.symm.trans hjustified) (by simp)
  | some outcome =>
    obtain ⟨payload', hdecode', hacked⟩ := hjustified
    obtain rfl := Option.some.inj (hdecode.symm.trans hdecode')
    cases outcome with
    | done =>
      obtain ⟨stored, hmem, hload⟩ := hcovered.done payload (hcovered.acked hacked)
      exact ⟨stored, hmem, _, hload, le_rfl⟩
    | dropped reason => exact hcovered.dropped payload reason (hcovered.acked hacked)

end Accounts

/-- The first of two observations of a vehicle is archived and settled, the second one at hand. -/
theorem exists_archived : ∃ (f : Fleet ℕ Milestone (Option (Payload Milestone)))
    (first second : Message (Option (Payload Milestone))) (o w : ℕ),
    FleetRuns twoWorkers (fun payload => payload.timestamp.WholeMicros) .new f ∧
      f.log = [first, second] ∧ f.stored = [second] ∧ (f.worker o w).message = some second ∧
      (f.worker o w).stage = .started ⟨secondLater, second.revision⟩ ∧
      CoveredBy (f.records ⟨1⟩).archived wholeMicrosecond.timestamp := by
  obtain ⟨f, first, second, hrun, hstored, hlog, hfirst, hsecond⟩ := exists_published
  have hreadable : ∀ payload : Payload Milestone, payload.timestamp.WholeMicros →
      payload.timestamp.Readable := fun _ h => h.readable
  have hne : second ≠ first := fun heq => by
    rw [heq, hfirst] at hsecond
    exact absurd hsecond (by decide)
  obtain ⟨f₁, outcome, hrun₁, hstored₁, -⟩ := exists_processed hrun hreadable
    (hstored ▸ List.mem_cons_self) (show twoWorkers.decode first.content = _ from hfirst)
  rw [hstored, List.erase_cons_head] at hstored₁
  have hreached := hrun.trans (Onward.runs hrun₁)
  obtain ⟨f₂, hrun₂, hstored₂, hmessage, hstage⟩ := exists_started hreached hreadable
    (hstored₁ ▸ List.mem_cons_self) (show twoWorkers.decode second.content = _ from hsecond)
  have hlog₂ := (Onward.run_log hrun₂).trans ((Onward.run_log hrun₁).trans hlog)
  have hstored := hstored₂.trans hstored₁
  have hreached₂ := hreached.trans (Onward.runs hrun₂)
  refine ⟨f₂, first, second, _, _, hreached₂, hlog₂, hstored, hmessage, hstage, ?_⟩
  have hdecoded : twoWorkers.decode first.content = some wholeMicrosecond := hfirst
  refine FleetRuns.coveredBy hreached₂ (by decide) (fun _ h => h) (hlog₂ ▸ List.mem_cons_self) ?_
    hdecoded
  rw [hstored]
  simpa using hne.symm

/-! ### Queues -/

/-- The messages of a vehicle among deliveries. -/
def messagesOf (vehicle : VehicleId) (deliveries : List (Delivery P W)) : List (Message W) :=
  (deliveries.filter fun delivery => delivery.payload.vehicleId = vehicle).map Delivery.message

theorem messagesOf_nil (v : VehicleId) : messagesOf v ([] : List (Delivery P W)) = [] := rfl

theorem messagesOf_append (v : VehicleId) (l l' : List (Delivery P W)) :
    messagesOf v (l ++ l') = messagesOf v l ++ messagesOf v l' := by
  simp only [messagesOf, List.filter_append, List.map_append]

theorem messagesOf_cons_self (delivery : Delivery P W) (l : List (Delivery P W)) :
    messagesOf delivery.payload.vehicleId (delivery :: l)
      = delivery.message :: messagesOf delivery.payload.vehicleId l := by
  rw [messagesOf, List.filter_cons_of_pos (by simp), List.map_cons, messagesOf]

theorem messagesOf_cons_of_ne {v : VehicleId} {delivery : Delivery P W}
    (h : delivery.payload.vehicleId ≠ v) (l : List (Delivery P W)) :
    messagesOf v (delivery :: l) = messagesOf v l := by
  rw [messagesOf, List.filter_cons_of_neg (by simpa using h), messagesOf]

/-- The messages of a vehicle that its worker is yet to take up, oldest first. -/
def Pod.underway (D : Deployment P W) (pod : Pod E P W) (vehicle : VehicleId) :
    List (Message W) :=
  messagesOf vehicle (pod.workers (D.pin vehicle)).channel ++
    messagesOf vehicle (pod.forwarding vehicle.partition).toList

/-- A pod's queues are in order, and bounded. -/
structure Pod.Queued (D : Deployment P W) (pod : Pod E P W) : Prop where
  pulled : ∀ v, pod.pulled v = pod.received v ++ pod.underway D v
  hand : ∀ w d, (pod.workers w).stage.dispatch = some d →
    (pod.received d.payload.vehicleId).getLast? = (pod.workers w).message
  channel : ∀ w, (pod.workers w).channel.length ≤ channelCapacity
  batch : pod.batch ≤ max 1 D.batchSize

namespace Pod

variable {pod : Pod E P W} {o : ℕ}

theorem queued_new : (new : Pod E P W).Queued D where
  pulled _ := rfl
  hand := by simp [new, WorkerState.new, Stage.dispatch]
  channel _ := Nat.zero_le _
  batch := Nat.zero_le _

/-- What is nothing to the messages on their way is nothing to the queues. -/
theorem Queued.congr (hpod : pod.Queued D) {pod' : Pod E P W}
    (hforwarding : pod'.forwarding = pod.forwarding) (hpulled : pod'.pulled = pod.pulled)
    (hreceived : pod'.received = pod.received) (hbatch : pod'.batch ≤ max 1 D.batchSize)
    (hworkers : ∀ w, (pod'.workers w).channel = (pod.workers w).channel ∧
      ∀ d, (pod'.workers w).stage.dispatch = some d → (pod.workers w).stage.dispatch = some d ∧
        (pod'.workers w).message = (pod.workers w).message) : pod'.Queued D where
  pulled v := by
    rw [underway, hpulled, hreceived, hforwarding, (hworkers _).1]
    exact hpod.pulled v
  hand w d hd := by
    obtain ⟨hd, hmessage⟩ := (hworkers w).2 d hd
    rw [hreceived, hmessage]
    exact hpod.hand w d hd
  channel w := by
    rw [(hworkers w).1]
    exact hpod.channel w
  batch := hbatch

/-- A worker that is at the same event, or at none, with the same channel. -/
theorem Queued.setWorker (hpod : pod.Queued D) {w : ℕ} {worker : WorkerState E P W}
    (hchannel : worker.channel = (pod.workers w).channel)
    (hhand : ∀ d, worker.stage.dispatch = some d → (pod.workers w).stage.dispatch = some d ∧
      worker.message = (pod.workers w).message) :
    ({ pod with workers := Function.update pod.workers w worker } : Pod E P W).Queued D := by
  refine hpod.congr rfl rfl rfl hpod.batch fun w' => ?_
  dsimp only
  obtain rfl | hne := eq_or_ne w' w
  · rw [Function.update_self]
    exact ⟨hchannel, hhand⟩
  · rw [Function.update_of_ne hne]
    exact ⟨rfl, fun d hd => ⟨hd, rfl⟩⟩

/-- What is pulled is behind all that is under way of its vehicle. -/
theorem Queued.pull (hpod : pod.Queued D) {delivery : Delivery P W} {partition : ℕ}
    (hpartition : delivery.payload.vehicleId.partition = partition)
    (hfree : pod.forwarding partition = none) :
    ({ pod with
      forwarding := Function.update pod.forwarding partition (some delivery)
      pulled := Function.update pod.pulled delivery.payload.vehicleId
        (pod.pulled delivery.payload.vehicleId ++ [delivery.message]) } : Pod E P W).Queued D := by
  refine { hpod with pulled := fun v => ?_ }
  subst hpartition
  have hbefore := hpod.pulled v
  unfold underway at hbefore ⊢
  dsimp only
  by_cases hv : delivery.payload.vehicleId = v
  · subst hv
    rw [hfree, Option.toList_none, messagesOf_nil, List.append_nil] at hbefore
    rw [Function.update_self, Function.update_self, hbefore, Option.toList_some,
      messagesOf_cons_self, List.append_assoc]
    rfl
  · rw [Function.update_of_ne (Ne.symm hv), hbefore]
    obtain heq | hne := eq_or_ne v.partition delivery.payload.vehicleId.partition
    · rw [heq, Function.update_self, hfree, Option.toList_some, messagesOf_cons_of_ne hv]
      rfl
    · rw [Function.update_of_ne hne]

/-- What is forwarded stays in its place. -/
theorem Queued.forward (hpod : pod.Queued D) {delivery : Delivery P W} {partition : ℕ}
    (hpartition : delivery.payload.vehicleId.partition = partition)
    (hforwarding : pod.forwarding partition = some delivery)
    (hroom : (pod.workers (D.pin delivery.payload.vehicleId)).channel.length < channelCapacity) :
    ({ pod with
      forwarding := Function.update pod.forwarding partition none
      workers := Function.update pod.workers (D.pin delivery.payload.vehicleId)
        { pod.workers (D.pin delivery.payload.vehicleId) with
          channel := (pod.workers (D.pin delivery.payload.vehicleId)).channel ++ [delivery] } } :
      Pod E P W).Queued D := by
  subst hpartition
  refine ⟨fun v => ?_, fun w d hd => ?_, fun w => ?_, hpod.batch⟩
  · have hbefore := hpod.pulled v
    rw [show pod.pulled v = _ from hbefore]
    congr 1
    unfold underway
    dsimp only
    by_cases hv : delivery.payload.vehicleId = v
    · subst hv
      rw [Function.update_self, Function.update_self, hforwarding, messagesOf_append,
        Option.toList_some, Option.toList_none, messagesOf_nil, List.append_nil]
    · have hforward : messagesOf v (Function.update pod.forwarding
          delivery.payload.vehicleId.partition none v.partition).toList
          = messagesOf v (pod.forwarding v.partition).toList := by
        obtain heq | hne := eq_or_ne v.partition delivery.payload.vehicleId.partition
        · rw [heq, Function.update_self, hforwarding, Option.toList_some, messagesOf_cons_of_ne hv]
          rfl
        · rw [Function.update_of_ne hne]
      rw [hforward]
      congr 1
      obtain heq | hne := eq_or_ne (D.pin v) (D.pin delivery.payload.vehicleId)
      · rw [heq, Function.update_self, messagesOf_append, messagesOf_cons_of_ne hv]
        exact (List.append_nil _).symm
      · rw [Function.update_of_ne hne]
  · dsimp only at hd ⊢
    obtain rfl | hne := eq_or_ne w (D.pin delivery.payload.vehicleId)
    · rw [Function.update_self] at hd ⊢
      exact hpod.hand _ d hd
    · rw [Function.update_of_ne hne] at hd ⊢
      exact hpod.hand w d hd
  · dsimp only
    obtain rfl | hne := eq_or_ne w (D.pin delivery.payload.vehicleId)
    · rw [Function.update_self, List.length_append]
      exact hroom
    · rw [Function.update_of_ne hne]
      exact hpod.channel w

/-- What a worker takes up is the oldest under way of its vehicle. -/
theorem Queued.receive (hrouted : pod.Routed D allowed o) (hpod : pod.Queued D) {w : ℕ}
    {delivery : Delivery P W} {rest : List (Delivery P W)}
    (hchannel : (pod.workers w).channel = delivery :: rest) :
    ({ pod with
      workers := Function.update pod.workers w
        { pod.workers w with
          channel := rest
          message := some delivery.message
          stage := .started delivery.dispatch }
      received := Function.update pod.received delivery.payload.vehicleId
        (pod.received delivery.payload.vehicleId ++ [delivery.message]) } :
      Pod E P W).Queued D := by
  obtain ⟨-, -, rfl⟩ := (hrouted.workers w).channel delivery (by simp [hchannel])
  refine ⟨fun v => ?_, fun w d hd => ?_, fun w => ?_, hpod.batch⟩
  · have hbefore := hpod.pulled v
    rw [show pod.pulled v = _ from hbefore]
    unfold underway
    dsimp only
    by_cases hv : delivery.payload.vehicleId = v
    · subst hv
      rw [Function.update_self, Function.update_self, hchannel, messagesOf_cons_self]
      simp only [List.append_assoc, List.cons_append, List.nil_append]
    · rw [Function.update_of_ne (Ne.symm hv)]
      obtain heq | hne := eq_or_ne (D.pin v) (D.pin delivery.payload.vehicleId)
      · rw [heq, Function.update_self, hchannel, messagesOf_cons_of_ne hv]
      · rw [Function.update_of_ne hne]
  · dsimp only at hd ⊢
    obtain rfl | hne := eq_or_ne w (D.pin delivery.payload.vehicleId)
    · rw [Function.update_self] at hd ⊢
      cases hd
      exact (congrArg List.getLast? (Function.update_self _ _ pod.received)).trans
        List.getLast?_concat
    · rw [Function.update_of_ne hne] at hd ⊢
      -- another worker is at an event of another vehicle
      obtain ⟨⟨-, rfl⟩, -⟩ := (hrouted.workers w).hand d hd
      rw [Function.update_of_ne fun h => hne (congrArg D.pin h)]
      exact hpod.hand _ d hd
  · dsimp only
    obtain rfl | hne := eq_or_ne w (D.pin delivery.payload.vehicleId)
    · have hbound := hpod.channel (D.pin delivery.payload.vehicleId)
      rw [hchannel] at hbound
      rw [Function.update_self]
      exact (Nat.le_succ _).trans hbound
    · rw [Function.update_of_ne hne]
      exact hpod.channel w

end Pod

/-- The queues of all pods are in order. -/
def Fleet.Queued (D : Deployment P W) (f : Fleet E P W) : Prop := ∀ o, (f.pods o).Queued D

section Queued

theorem Fleet.Queued.setPod (hf : f.Queued D) {o : ℕ} {pod : Pod E P W} (hpod : pod.Queued D) :
    (f.setPod o pod).Queued D :=
  (Function.forall_update_iff _ fun _ (pod : Pod E P W) => pod.Queued D).mpr
    ⟨hpod, fun o' _ => hf o'⟩

theorem Fleet.Queued.setWorker (hf : f.Queued D) {o w : ℕ} {worker : WorkerState E P W}
    (hchannel : worker.channel = (f.worker o w).channel)
    (hhand : ∀ d, worker.stage.dispatch = some d → (f.worker o w).stage.dispatch = some d ∧
      worker.message = (f.worker o w).message) : (f.setWorker o w worker).Queued D :=
  hf.setPod ((hf o).setWorker hchannel hhand)

variable [Geometry P] [DecidableEq P] [DecidableEq W]

theorem Fleet.Queued.step {f' : Fleet E P W} (hrouted : f.Routed D allowed) (hf : f.Queued D)
    (h : FleetStep D allowed f f') : f'.Queued D := by
  cases h with
  | produce partition content hcontent => exact hf
  | pull message payload pod hmessage hdecode hpod hfree =>
    subst hpod
    have hpartition : (⟨payload, message⟩ : Delivery P W).payload.vehicleId.partition
        = message.partition := (hrouted.stored message hmessage payload hdecode).1
    exact hf.setPod ((hf _).pull hpartition hfree)
  | poison message hmessage hdecode hfree => exact hf
  | forward o partition delivery pod worker hpod hforwarding hworker hroom =>
    subst hpod hworker
    have hpartition := ((hrouted.pods o).forwarding partition delivery hforwarding).2.2
    exact hf.setPod ((hf o).forward hpartition hforwarding hroom)
  | receive o w delivery rest pod worker hpod hworker hidle hchannel =>
    subst hpod hworker
    exact hf.setPod ((hf o).receive (hrouted.pods o) hchannel)
  | work o w d s hd hwork =>
    obtain ⟨d', hd', hstage, -⟩ := hwork.frame
    obtain rfl : d = d' := Option.some.inj (hd.symm.trans hd')
    have hstay : ∀ d', s.stage.dispatch = some d' →
        ((f.pods o).workers w).stage.dispatch = some d' ∧
          (f.worker o w).message = ((f.pods o).workers w).message :=
      fun d' hd' => ⟨hd.trans (hstage.symm.trans hd'), rfl⟩
    have hworker : ({ f.pods o with
        workers := Function.update (f.pods o).workers w { f.worker o w with
          stage := s.stage
          histories := Function.update (f.worker o w).histories d.payload.vehicleId s.histories
          trips := Function.update (f.worker o w).trips d.payload.vehicleId s.trips } } :
        Pod E P W).Queued D := (hf o).setWorker rfl hstay
    exact hf.setPod { hworker with }
  | ack o w d outcome message hstage hmessage =>
    have hidle : (f.setWorker o w { f.worker o w with stage := .idle, message := none }).Queued D :=
      hf.setWorker rfl fun d hd => by cases hd
    exact hidle
  | settle message outcome hack =>
    unfold Fleet.settle
    split <;> exact hf
  | ackLost o w d outcome hstage => exact hf.setWorker rfl fun d hd => by cases hd
  | evictLane o w vehicle => exact hf.setWorker rfl fun d hd => ⟨hd, rfl⟩
  | evictTrip o w vehicle => exact hf.setWorker rfl fun d hd => ⟨hd, rfl⟩
  | collect o n hbatch hpos hle hn => exact hf.setPod { hf o with batch := hle }
  | append o node entry record kept hentry hrecord hmin hle => exact hf.setPod { hf o with }
  | retry o => exact hf.setPod { hf o with }
  | flush o hwritten =>
    refine hf.setPod ((hf o).congr rfl rfl rfl (Nat.zero_le _) fun w => ⟨rfl, fun d hd => ⟨?_, rfl⟩⟩)
    exact (Stage.dispatch_reportBatch _ _).symm.trans hd
  | restart o => exact hf.setPod Pod.queued_new

theorem FleetRuns.queued (h : FleetRuns D allowed .new f) : f.Queued D := by
  induction h with
  | refl => exact fun _ => Pod.queued_new
  | tail hrun hstep ih => exact ih.step (FleetRuns.routed hrun) hstep

end Queued

/-! ### Who has to do with a vehicle -/

/-- A worker has something of a vehicle: an event in its channel or at hand, or a cache. -/
def Fleet.Holds (f : Fleet E P W) (o w : ℕ) (vehicle : VehicleId) : Prop :=
  (∃ delivery ∈ (f.worker o w).channel, delivery.payload.vehicleId = vehicle) ∨
    (∃ d, (f.worker o w).stage.dispatch = some d ∧ d.payload.vehicleId = vehicle) ∨
    (∃ lane, (f.worker o w).histories vehicle = some lane) ∨
    ∃ trip, (f.worker o w).trips vehicle = some trip

/-- A pod has something of a vehicle outside its workers: to forward, or to archive. -/
def Fleet.Passes (f : Fleet E P W) (o : ℕ) (vehicle : VehicleId) : Prop :=
  (∃ partition delivery, (f.pods o).forwarding partition = some delivery ∧
    delivery.payload.vehicleId = vehicle) ∨
    ∃ entry ∈ (f.pods o).queue, entry.1.vehicleId = vehicle

section Safety

variable [Geometry P] [DecidableEq P] [DecidableEq W]

/-- **A vehicle is one worker's** through all runs, whatever restarts and is evicted: no other has
an event of it in its channel or at hand, or caches its lane or its trip; and no other pod than the
worker's forwards its events or writes to its archive. -/
theorem fleet_exclusive (D : Deployment P W) (allowed : Payload P → Prop) :
    ∃ home : VehicleId → ℕ × ℕ,
      (∀ v, (home v).1 < D.fleet ∧ (home v).2 < D.workers) ∧
      ∀ f : Fleet E P W, FleetRuns D allowed .new f → ∀ v o,
        (∀ w, f.Holds o w v → home v = (o, w)) ∧ (f.Passes o v → (home v).1 = o) := by
  refine ⟨fun v => (D.pod v, D.pin v), fun v => ⟨?_, ?_⟩, fun f h v o => ⟨fun w hholds => ?_, ?_⟩⟩
  · have hlt := podOf_lt D.fleet_le.1 v.partition
    rwa [← D.owner_eq] at hlt
  · dsimp only
    rw [D.pin_eq]
    exact Nat.mod_lt _ D.workers_pos
  · have hworker := ((FleetRuns.routed h).pods o).workers w
    have hhome : D.Home o w v := by
      obtain ⟨delivery, hmem, rfl⟩ | ⟨d, hd, rfl⟩ | ⟨lane, hlane⟩ | ⟨trip, htrip⟩ := hholds
      · exact (hworker.channel delivery hmem).2
      · exact (hworker.hand d hd).1
      · exact hworker.histories v lane hlane
      · exact hworker.trips v trip htrip
    exact Prod.ext hhome.1 hhome.2
  · have hpod := (FleetRuns.routed h).pods o
    rintro (⟨partition, delivery, hforwarding, rfl⟩ | ⟨entry, hentry, rfl⟩)
    · exact (hpod.forwarding partition delivery hforwarding).2.1
    · exact hpod.queue entry hentry

/-- **The fleet does to a vehicle what its lane does.**  However the steps of the fleet interleave,
there is a run of the vehicle's lane alone, of allowed events of the vehicle, to the archive and the
history that the fleet has of the vehicle, to the stage and the caches of the worker that is at it,
and to what the writer of its pod has yet to write of it. -/
theorem fleet_simulates (h : FleetRuns D allowed .new f) (v : VehicleId) :
    ∃ lane : Pipeline E P,
      Runs D.settings (fun payload => payload.vehicleId = v ∧ allowed payload) .new lane ∧
      (⟨lane.archive, lane.archived, lane.published, lane.committed, lane.entries, lane.returned,
        lane.acked, lane.solves, lane.sends⟩ : Record E P) = f.records v ∧
      (∀ o w d, (f.worker o w).stage.dispatch = some d → d.payload.vehicleId = v →
        lane.stage = (f.worker o w).stage) ∧
      (∀ o w events, (f.worker o w).histories v = some events → lane.histories = some events) ∧
      (∀ o w trip, (f.worker o w).trips v = some trip → lane.trips = some trip) ∧
      ∀ o entry, entry ∈ (f.pods o).queue → entry.1.vehicleId = v → entry ∈ lane.queue := by
  have hrouted := FleetRuns.routed h
  refine ⟨f.lane D v, FleetRuns.lane_runs h v, rfl, ?_, ?_, ?_, ?_⟩
  · rintro o w d hd rfl
    obtain ⟨⟨rfl, rfl⟩, -⟩ := ((hrouted.pods o).workers w).hand d hd
    exact Stage.forVehicle_of_dispatch hd
  · intro o w events hevents
    obtain ⟨rfl, rfl⟩ := ((hrouted.pods o).workers w).histories v events hevents
    exact hevents
  · intro o w trip htrip
    obtain ⟨rfl, rfl⟩ := ((hrouted.pods o).workers w).trips v trip htrip
    exact htrip
  · rintro o entry hentry rfl
    obtain rfl := (hrouted.pods o).queue entry hentry
    exact List.mem_filter.mpr ⟨hentry, decide_eq_true rfl⟩

omit [Geometry P] [DecidableEq P] [DecidableEq W] in
/-- A lane behind the second of two observations, in which the first is archived. -/
theorem fleet_simulates_twoWorkers : ∃ (f : Fleet ℕ Milestone (Option (Payload Milestone)))
    (revision : ℕ) (lane : Pipeline ℕ Milestone),
    Runs defaultSettings (fun payload => payload.vehicleId = ⟨1⟩ ∧ payload.timestamp.WholeMicros)
        .new lane ∧
      lane.archived = (f.records ⟨1⟩).archived ∧
      CoveredBy lane.archived wholeMicrosecond.timestamp ∧
      lane.stage = .started ⟨secondLater, revision⟩ := by
  obtain ⟨f, first, second, o, w, hrun, -, -, -, hstage, hcovered⟩ := exists_archived
  obtain ⟨lane, hlane, hrecord, hstages, -⟩ := fleet_simulates hrun ⟨1⟩
  have harchived : lane.archived = (f.records ⟨1⟩).archived := congrArg Record.archived hrecord
  refine ⟨f, second.revision, lane, hlane, harchived, harchived ▸ hcovered, ?_⟩
  rw [hstages o w _ (congrArg Stage.dispatch hstage) rfl, hstage]

/-- **Every message is processed, and takes effect once**, with times in whole microseconds: of the
messages that have been published, each once, each is stored or settled; it is settled if it cannot
be decoded, if its event is archived, or if one of its vehicle is that is no earlier; and no event
enters the history of its vehicle twice, or behind a later one. -/
theorem fleet_exactly_once (h : FleetRuns D allowed .new f)
    (hwindow : 1 ≤ D.settings.contextWindow) (hhistory : 1 ≤ D.settings.history)
    (hallowed : ∀ payload, allowed payload → payload.timestamp.WholeMicros) :
    f.log.Nodup ∧ f.log.Perm (f.stored ++ f.settled.map Prod.fst) ∧
      (∀ message, (message, none) ∈ f.settled → D.decode message.content = none) ∧
      (∀ message, (message, some .done) ∈ f.settled → ∃ payload,
        D.decode message.content = some payload ∧
          ∃ stored ∈ (f.records payload.vehicleId).archived,
            stored.load = some payload.asEvent) ∧
      (∀ message reason, (message, some (.dropped reason)) ∈ f.settled → ∃ payload,
        D.decode message.content = some payload ∧
          CoveredBy (f.records payload.vehicleId).archived payload.timestamp) ∧
      ∀ v, (f.records v).entries.Pairwise fun a b => a.timestamp < b.timestamp := by
  have hf := FleetRuns.accounted h
  have hwhole : ∀ v payload, payload.vehicleId = v ∧ allowed payload →
      payload.timestamp.WholeMicros := fun _ payload hpayload => hallowed payload hpayload.2
  have hcovered : ∀ v, (f.lane D v).Covered := fun v =>
    Runs.covered hhistory (hwhole v) (FleetRuns.lane_runs h v)
  refine ⟨hf.nodup, hf.perm, fun message hsettled => hf.settled message none hsettled,
    fun message hsettled => ?_, fun message reason hsettled => ?_, fun v => ?_⟩
  · obtain ⟨payload, hdecode, hacked⟩ := hf.settled message (some .done) hsettled
    have hlane := hcovered payload.vehicleId
    exact ⟨payload, hdecode, hlane.done payload (hlane.acked hacked)⟩
  · obtain ⟨payload, hdecode, hacked⟩ := hf.settled message (some (.dropped reason)) hsettled
    have hlane := hcovered payload.vehicleId
    exact ⟨payload, hdecode, hlane.dropped payload reason (hlane.acked hacked)⟩
  · exact Runs.entries_increasing hwindow hhistory (hwhole v) (FleetRuns.lane_runs h v)

omit [Geometry P] [DecidableEq P] [DecidableEq W] in
/-- The first of two observations is settled, for it is archived, and the second is stored. -/
theorem fleet_exactly_once_twoWorkers : ∃ (f : Fleet ℕ Milestone (Option (Payload Milestone)))
    (first second : Message (Option (Payload Milestone))),
    f.log = [first, second] ∧ f.stored = [second] ∧ f.settled.map Prod.fst = [first] ∧
      CoveredBy (f.records ⟨1⟩).archived wholeMicrosecond.timestamp := by
  obtain ⟨f, first, second, o, w, hrun, hlog, hstored, -, -, hcovered⟩ := exists_archived
  have hperm := (fleet_exactly_once hrun (by decide) (by decide) fun _ h => h).2.1
  rw [hlog, hstored] at hperm
  have hsettled : [first].Perm (f.settled.map Prod.fst) :=
    (List.perm_cons second).mp ((List.Perm.swap first second []).trans hperm)
  exact ⟨f, first, second, hlog, hstored, List.perm_singleton.mp hsettled.symm, hcovered⟩

/-- **A vehicle's messages stay in order**, in bounded channels: since the start of its pod its
worker has taken up the first that its forwarder pulled, the one at hand last, and the others wait
in that order; and the writer of a pod takes up no more than a batch. -/
theorem fleet_in_order (h : FleetRuns D allowed .new f) (o : ℕ) :
    (∀ v, (f.pods o).received v <+: (f.pods o).pulled v) ∧
      (∀ v, (f.pods o).pulled v = (f.pods o).received v ++ (f.pods o).underway D v) ∧
      (∀ w d, (f.worker o w).stage.dispatch = some d →
        ((f.pods o).received d.payload.vehicleId).getLast? = (f.worker o w).message) ∧
      (∀ w, (f.worker o w).channel.length ≤ channelCapacity) ∧
      (f.pods o).batch ≤ max 1 D.batchSize := by
  have hpod := FleetRuns.queued h o
  exact ⟨fun v => ⟨_, (hpod.pulled v).symm⟩, hpod.pulled, hpod.hand, hpod.channel, hpod.batch⟩

omit [Geometry P] [DecidableEq P] [DecidableEq W] in
/-- Of two observations of a vehicle the second has been taken up last. -/
theorem fleet_in_order_twoWorkers : ∃ (f : Fleet ℕ Milestone (Option (Payload Milestone))) (o : ℕ)
    (first second : Message (Option (Payload Milestone))), f.log = [first, second] ∧
      f.stored = [second] ∧ (f.pods o).received ⟨1⟩ <+: (f.pods o).pulled ⟨1⟩ ∧
      ((f.pods o).received ⟨1⟩).getLast? = some second := by
  obtain ⟨f, first, second, o, w, hrun, hlog, hstored, hmessage, hstage, -⟩ := exists_archived
  obtain ⟨hpulled, -, hhand, -⟩ := fleet_in_order hrun o
  exact ⟨f, o, first, second, hlog, hstored, hpulled ⟨1⟩,
    (hhand w _ (congrArg Stage.dispatch hstage)).trans hmessage⟩

end Safety

end Routers
