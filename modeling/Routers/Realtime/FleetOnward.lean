import Routers.Realtime.FleetLane

/-!
# The fleet goes on

What the fleet does in the ordinary course of things takes nothing from its pods: what has been
pulled stays pulled, and lanes and trips stay cached.  A worker that waits for the writer waits for
something that the writer has yet to write out.

## Main definitions

* `Fleet.Keeps`, `Onward` — a step that takes nothing from the pods.
* `AtWork` — a step at the event of one worker.
* `Pod.Pending` — what the writer has yet to write, and who waits for it.

## Main results

* `WorkStep.keeps` — a worker keeps what it has cached.
* `FleetRuns.pending` — a worker waits for what is in the writer's queue.

## References

`src/libs/routers_realtime/bin/orchestrator.rs` and `src/libs/routers_realtime/src/store/redis.rs`.
-/

namespace Routers

variable {E P W : Type}

/-! ### Steps that take nothing away -/

/-- A pod forgets nothing that it has pulled, and no worker of it a lane or a trip.  A restart
forgets all of that, and an eviction a lane or a trip. -/
structure Pod.Keeps (pod pod' : Pod E P W) : Prop where
  pulled : ∀ v, pod.pulled v <+: pod'.pulled v
  histories : ∀ w v, ((pod.workers w).histories v).isSome → ((pod'.workers w).histories v).isSome
  trips : ∀ w v, ((pod.workers w).trips v).isSome → ((pod'.workers w).trips v).isSome

/-- No pod forgets anything. -/
def Fleet.Keeps (f f' : Fleet E P W) : Prop := ∀ o, (f.pods o).Keeps (f'.pods o)

section Keeps

variable {pod pod' : Pod E P W} {f : Fleet E P W}

theorem Pod.Keeps.refl (pod : Pod E P W) : pod.Keeps pod :=
  ⟨fun _ => List.prefix_rfl, fun _ _ h => h, fun _ _ h => h⟩

/-- One worker does something. -/
theorem Pod.Keeps.setWorker {w : ℕ} {worker : WorkerState E P W}
    (hpulled : ∀ v, pod.pulled v <+: pod'.pulled v)
    (hworkers : pod'.workers = Function.update pod.workers w worker)
    (hhistories : ∀ v, ((pod.workers w).histories v).isSome → (worker.histories v).isSome)
    (htrips : ∀ v, ((pod.workers w).trips v).isSome → (worker.trips v).isSome) :
    pod.Keeps pod' := by
  refine ⟨hpulled, fun w' v h => ?_, fun w' v h => ?_⟩
  · rw [hworkers]
    obtain rfl | hne := eq_or_ne w' w
    · rw [Function.update_self]
      exact hhistories v h
    · rwa [Function.update_of_ne hne]
  · rw [hworkers]
    obtain rfl | hne := eq_or_ne w' w
    · rw [Function.update_self]
      exact htrips v h
    · rwa [Function.update_of_ne hne]

theorem Fleet.keeps_setPod {o : ℕ} (h : (f.pods o).Keeps pod) : f.Keeps (f.setPod o pod) := by
  intro o'
  unfold setPod
  dsimp only
  obtain rfl | hne := eq_or_ne o' o
  · rwa [Function.update_self]
  · rw [Function.update_of_ne hne]
    exact Pod.Keeps.refl _

end Keeps

/-- What there is of a vehicle at its worker stays there while the worker is at an event. -/
theorem WorkStep.keeps [Geometry P] [DecidableEq P] {c : Settings} {s s' : Local E P}
    (h : WorkStep c s s') :
    (s.histories.isSome → s'.histories.isSome) ∧ (s.trips.isSome → s'.trips.isSome) := by
  have hgate : ∀ (s : Local E P) (lane : List (RawEvent P)) (d : Dispatch P),
      (s.gate c lane d).histories = s.histories ∧ (s.gate c lane d).trips = s.trips := by
    intro s lane d
    unfold Local.gate
    split <;> exact ⟨rfl, rfl⟩
  cases h with
  | warm d lane hstage hlane hwarmed =>
    obtain ⟨hhistories, htrips⟩ := hgate { s with histories := some lane } lane d
    rw [hhistories, htrips]
    exact ⟨fun _ => rfl, id⟩
  | gate d lane hstage hlane =>
    obtain ⟨hhistories, htrips⟩ := hgate s lane d
    rw [hhistories, htrips]
    exact ⟨id, id⟩
  | commit d solve hstage => exact ⟨id, fun _ => rfl⟩
  | enter d hstage =>
    refine ⟨fun hlane => ?_, id⟩
    rw [Local.finish, Option.isSome_map]
    exact hlane
  | _ => exact ⟨id, id⟩

section Onward

variable [Geometry P] [DecidableEq P] [DecidableEq W] (D : Deployment P W)
  (allowed : Payload P → Prop)

/-- A step that takes nothing from the pods, and publishes nothing. -/
structure Onward (f f' : Fleet E P W) : Prop where
  step : FleetStep D allowed f f'
  keeps : f.Keeps f'
  log : f'.log = f.log

/-- A step at the event of one worker: the broker, the forwarders, the worker's channel and its
message stay as they are. -/
structure AtWork (o w : ℕ) (f f' : Fleet E P W) : Prop extends Onward D allowed f f' where
  stored : f'.stored = f.stored
  forwarding : (f'.pods o).forwarding = (f.pods o).forwarding
  channel : (f'.worker o w).channel = (f.worker o w).channel
  message : (f'.worker o w).message = (f.worker o w).message

end Onward

section Runs

variable [Geometry P] [DecidableEq P] [DecidableEq W] {D : Deployment P W}
  {allowed : Payload P → Prop} {f f' : Fleet E P W} {o w : ℕ}

theorem Onward.runs (h : Relation.ReflTransGen (Onward D allowed) f f') :
    FleetRuns D allowed f f' :=
  Relation.ReflTransGen.mono (fun _ _ hstep => hstep.step) _ _ h

theorem Onward.run_log (h : Relation.ReflTransGen (Onward D allowed) f f') : f'.log = f.log := by
  induction h with
  | refl => rfl
  | tail _ hstep ih => exact hstep.log.trans ih

theorem AtWork.onward (h : Relation.ReflTransGen (AtWork D allowed o w) f f') :
    Relation.ReflTransGen (Onward D allowed) f f' :=
  Relation.ReflTransGen.mono (fun _ _ hstep => hstep.toOnward) _ _ h

/-- What stays in a step stays in a run. -/
theorem AtWork.run (h : Relation.ReflTransGen (AtWork D allowed o w) f f') :
    f'.stored = f.stored ∧ (f'.pods o).forwarding = (f.pods o).forwarding ∧
      (f'.worker o w).channel = (f.worker o w).channel ∧
      (f'.worker o w).message = (f.worker o w).message := by
  induction h with
  | refl => exact ⟨rfl, rfl, rfl, rfl⟩
  | tail _ hstep ih =>
    obtain ⟨hstored, hforwarding, hchannel, hmessage⟩ := ih
    exact ⟨hstep.stored.trans hstored, hstep.forwarding.trans hforwarding,
      hstep.channel.trans hchannel, hstep.message.trans hmessage⟩

end Runs

/-! ### Who waits for the writer -/

/-- No primary has written more than its part of the batch, and what a worker waits for is in the
writer's queue. -/
structure Pod.Pending (D : Deployment P W) (pod : Pod E P W) : Prop where
  written_le : ∀ node, pod.written node ≤ (pod.pipeline D node).length
  waiting : ∀ w d ticket, (pod.workers w).stage = .waiting d ticket →
    (d.payload.asEvent, ticket) ∈ pod.queue

theorem WorkStep.waiting [Geometry P] [DecidableEq P] {c : Settings} {s s' : Local E P}
    (h : WorkStep c s s') {d : Dispatch P} {ticket : ℕ} (hstage : s'.stage = .waiting d ticket) :
    (d.payload.asEvent, ticket) ∈ s'.queue := by
  have hgate : ∀ (s : Local E P) (lane : List (RawEvent P)) (d' : Dispatch P),
      (s.gate c lane d').stage ≠ .waiting d ticket := by
    intro s lane d'
    unfold Local.gate
    split <;> simp [Local.finish]
  cases h with
  | warm => exact absurd hstage (hgate _ _ _)
  | gate => exact absurd hstage (hgate _ _ _)
  | send d' =>
    cases hstage
    exact List.mem_append_right _ (List.mem_singleton_self _)
  | _ => cases hstage

section Pending

variable [Geometry P] [DecidableEq P] [DecidableEq W] {D : Deployment P W}
  {allowed : Payload P → Prop} {pod : Pod E P W} {f f' : Fleet E P W} {o w : ℕ}

omit [Geometry P] [DecidableEq P] [DecidableEq W] in
theorem Pod.pending_new : (new : Pod E P W).Pending D where
  written_le _ := Nat.zero_le _
  waiting w d ticket h := by cases h

omit [Geometry P] [DecidableEq P] [DecidableEq W] in
/-- One worker does something that is not to wait. -/
theorem Pod.Pending.setWorker (h : pod.Pending D) {worker : WorkerState E P W}
    (hworker : ∀ d ticket, worker.stage = .waiting d ticket →
      (pod.workers w).stage = .waiting d ticket) :
    ({ pod with workers := Function.update pod.workers w worker } : Pod E P W).Pending D := by
  refine { h with waiting := fun w' d ticket hstage => ?_ }
  dsimp only at hstage
  obtain rfl | hne := eq_or_ne w' w
  · rw [Function.update_self] at hstage
    exact h.waiting w' d ticket (hworker d ticket hstage)
  · rw [Function.update_of_ne hne] at hstage
    exact h.waiting w' d ticket hstage

/-- The pods write what they have been sent. -/
def Fleet.Pending (D : Deployment P W) (f : Fleet E P W) : Prop := ∀ o, (f.pods o).Pending D

omit [Geometry P] [DecidableEq P] [DecidableEq W] in
theorem Fleet.Pending.setPod (hf : f.Pending D) (hpod : pod.Pending D) :
    (f.setPod o pod).Pending D :=
  (Function.forall_update_iff _ fun _ (pod : Pod E P W) => pod.Pending D).mpr
    ⟨hpod, fun o' _ => hf o'⟩

omit [DecidableEq W] in
/-- What a worker does is nothing to the batch, and it waits for what it has sent. -/
theorem Fleet.Pending.put (hrouted : f.Routed D allowed) (hf : f.Pending D) {d : Dispatch P}
    {s : Local E P} (hwork : WorkStep D.settings (f.view o w d.payload.vehicleId) s) :
    (f.put o w d.payload.vehicleId s).Pending D := by
  obtain ⟨-, -, -, sent, hqueue, -⟩ := hwork.frame
  have hbatch := (hrouted.pods o).batch_le
  have hqueue : s.queue = (f.pods o).queue ++ sent := hqueue
  refine hf.setPod ⟨fun node => ?_, fun w' d' ticket hstage => ?_⟩
  · rw [Pod.pipeline]
    dsimp only
    rw [hqueue, List.take_append_of_le_length hbatch]
    exact (hf o).written_le node
  · dsimp only at hstage ⊢
    obtain rfl | hne := eq_or_ne w' w
    · rw [Function.update_self] at hstage
      exact hwork.waiting hstage
    · rw [Function.update_of_ne hne] at hstage
      rw [hqueue]
      exact List.mem_append_left _ ((hf o).waiting w' d' ticket hstage)

omit [Geometry P] [DecidableEq P] [DecidableEq W] in
/-- A worker whose ticket is not reported still waits for what is left in the queue. -/
theorem Pod.Pending.flush (h : pod.Pending D) :
    ({ pod with
      workers := fun w =>
        { pod.workers w with
          stage := (pod.workers w).stage.reportBatch (pod.queue.take pod.batch) }
      queue := pod.queue.drop pod.batch
      batch := 0
      written := fun _ => 0 } : Pod E P W).Pending D where
  written_le _ := Nat.zero_le _
  waiting w d ticket hstage := by
    dsimp only at hstage ⊢
    have hd : (pod.workers w).stage.dispatch = some d := by
      rw [← Stage.dispatch_reportBatch _ (pod.queue.take pod.batch), hstage]
      rfl
    rw [Stage.reportBatch, hd] at hstage
    dsimp only at hstage
    obtain heq | ⟨d', ticket', -, -, heq⟩ := (pod.workers w).stage.report_cases
      (((pod.queue.take pod.batch).filter (ofVehicle d.payload.vehicleId)).map Prod.snd)
    · have hwaiting := heq.symm.trans hstage
      have hmem := h.waiting w d ticket hwaiting
      rw [← List.take_append_drop pod.batch pod.queue] at hmem
      refine (List.mem_append.mp hmem).resolve_left fun hmem => ?_
      -- otherwise its ticket would have been reported
      rw [hwaiting, Stage.report, if_pos] at heq
      · cases heq
      · exact List.mem_map_of_mem (List.mem_filter.mpr ⟨hmem, decide_eq_true rfl⟩)
    · cases heq.symm.trans hstage

theorem Fleet.Pending.step (hrouted : f.Routed D allowed) (hf : f.Pending D)
    (h : FleetStep D allowed f f') : f'.Pending D := by
  cases h with
  | produce partition content hcontent => exact hf
  | pull message payload pod hmessage hdecode hpod hfree =>
    subst hpod
    exact hf.setPod { hf _ with }
  | poison message hmessage hdecode hfree => exact hf
  | forward o partition delivery pod worker hpod hforwarding hworker hroom =>
    subst hpod hworker
    have hworker : ({ f.pods o with
        workers := Function.update (f.pods o).workers (D.pin delivery.payload.vehicleId)
          { (f.pods o).workers (D.pin delivery.payload.vehicleId) with
            channel := ((f.pods o).workers (D.pin delivery.payload.vehicleId)).channel
              ++ [delivery] } } : Pod E P W).Pending D :=
      (hf o).setWorker fun d ticket hstage => hstage
    exact hf.setPod { hworker with }
  | receive o w delivery rest pod worker hpod hworker hidle hchannel =>
    subst hpod hworker
    have hworker : ({ f.pods o with
        workers := Function.update (f.pods o).workers w
          { (f.pods o).workers w with
            channel := rest
            message := some delivery.message
            stage := .started delivery.dispatch } } : Pod E P W).Pending D :=
      (hf o).setWorker fun d ticket hstage => by cases hstage
    exact hf.setPod { hworker with }
  | work o w d s hd hwork => exact hf.put hrouted hwork
  | ack o w d outcome message hstage hmessage =>
    exact hf.setPod ((hf o).setWorker fun d ticket hstage => by cases hstage)
  | settle message outcome hack =>
    unfold Fleet.settle
    split <;> exact hf
  | ackLost o w d outcome hstage =>
    exact hf.setPod ((hf o).setWorker fun d ticket hstage => by cases hstage)
  | evictLane o w vehicle => exact hf.setPod ((hf o).setWorker fun d ticket hstage => hstage)
  | evictTrip o w vehicle => exact hf.setPod ((hf o).setWorker fun d ticket hstage => hstage)
  | collect o n hbatch hpos hle hn =>
    exact hf.setPod { hf o with written_le := fun node => Nat.zero_le _ }
  | append o node entry record kept hentry hrecord hmin hle =>
    have hlt : (f.pods o).written node < ((f.pods o).pipeline D node).length :=
      (List.getElem?_eq_some_iff.mp hentry).1
    refine hf.setPod { hf o with written_le := fun node' => ?_ }
    dsimp only
    obtain rfl | hne := eq_or_ne node' node
    · rw [Function.update_self]
      exact hlt
    · rw [Function.update_of_ne hne]
      exact (hf o).written_le node'
  | retry o => exact hf.setPod { hf o with written_le := fun node => Nat.zero_le _ }
  | flush o hwritten => exact hf.setPod (hf o).flush
  | restart o => exact hf.setPod Pod.pending_new

theorem FleetRuns.pending (h : FleetRuns D allowed .new f) : f.Pending D := by
  induction h with
  | refl => exact fun _ => Pod.pending_new
  | tail hrun hstep ih => exact ih.step (FleetRuns.routed hrun) hstep

end Pending

end Routers
