import Routers.Realtime.Fleet
import Routers.Realtime.Lane

/-!
# The homes of a fleet's vehicles

Every vehicle has one home: the pod that consumes its partition, and the worker in it that the
vehicle is pinned to.  Whatever is under way for a vehicle is under way there: a message is of the
partition of its vehicle, a forwarder hands it to the worker of the vehicle, and a worker has to do
with the vehicle at hand alone.

## Main definitions

* `Deployment.Home` — the home of a vehicle.
* `Fleet.Routed` — what is under way is under way at home.

## Main results

* `WorkStep.frame` — a worker has to do with the vehicle at hand.
* `Fleet.Routed.step`, `FleetRuns.routed` — **everything stays at home.**

## References

`src/libs/routers_realtime/bin/orchestrator.rs` and `src/libs/routers_realtime/src/ingest.rs`.
-/

namespace Routers

variable {E P W : Type}

namespace Stage

theorem dispatch_reportBatch (stage : Stage E P) (batch : List (RawEvent P × ℕ)) :
    (stage.reportBatch batch).dispatch = stage.dispatch := by
  unfold reportBatch
  split
  · exact dispatch_report _ _
  · rfl

end Stage

/-! ### Homes -/

/-- A vehicle's home is a worker of a pod. -/
def Deployment.Home (D : Deployment P W) (o w : ℕ) (vehicle : VehicleId) : Prop :=
  D.pod vehicle = o ∧ D.pin vehicle = w

/-- A delivery is of what its message says, and of an allowed event. -/
def Deployment.Carries (D : Deployment P W) (allowed : Payload P → Prop)
    (delivery : Delivery P W) : Prop :=
  D.decode delivery.message.content = some delivery.payload ∧ allowed delivery.payload

/-- A worker has to do with vehicles at home there. -/
structure WorkerState.Routed (D : Deployment P W) (allowed : Payload P → Prop) (o w : ℕ)
    (worker : WorkerState E P W) : Prop where
  channel : ∀ delivery ∈ worker.channel,
    D.Carries allowed delivery ∧ D.Home o w delivery.payload.vehicleId
  hand : ∀ d, worker.stage.dispatch = some d → D.Home o w d.payload.vehicleId ∧
    allowed d.payload ∧ ∃ message, worker.message = some message ∧
      D.decode message.content = some d.payload ∧ message.revision = d.revision
  histories : ∀ vehicle lane, worker.histories vehicle = some lane → D.Home o w vehicle
  trips : ∀ vehicle trip, worker.trips vehicle = some trip → D.Home o w vehicle

/-- A pod has to do with vehicles of its block, and writes no more than it has been sent. -/
structure Pod.Routed (D : Deployment P W) (allowed : Payload P → Prop) (o : ℕ)
    (pod : Pod E P W) : Prop where
  forwarding : ∀ partition delivery, pod.forwarding partition = some delivery →
    D.Carries allowed delivery ∧ D.pod delivery.payload.vehicleId = o ∧
      delivery.payload.vehicleId.partition = partition
  workers : ∀ w, (pod.workers w).Routed D allowed o w
  queue : ∀ entry ∈ pod.queue, D.pod entry.1.vehicleId = o
  batch_le : pod.batch ≤ pod.queue.length

/-- What is under way is under way at home. -/
structure Fleet.Routed (D : Deployment P W) (allowed : Payload P → Prop) (f : Fleet E P W) :
    Prop where
  stored : ∀ message ∈ f.stored, ∀ payload, D.decode message.content = some payload →
    payload.vehicleId.partition = message.partition ∧ allowed payload
  pods : ∀ o, (f.pods o).Routed D allowed o

section Routed

variable {D : Deployment P W} {allowed : Payload P → Prop} {f : Fleet E P W} {o w : ℕ}

theorem WorkerState.routed_new : (new : WorkerState E P W).Routed D allowed o w where
  channel := by simp [new]
  hand := by simp [new, Stage.dispatch]
  histories := by simp [new]
  trips := by simp [new]

/-- A worker is still at the same event. -/
theorem WorkerState.Routed.stay {worker : WorkerState E P W} (h : worker.Routed D allowed o w)
    {stage : Stage E P} (hstage : stage.dispatch = worker.stage.dispatch) :
    ({ worker with stage := stage } : WorkerState E P W).Routed D allowed o w :=
  { h with hand := fun d hd => h.hand d (hstage.symm.trans hd) }

theorem WorkerState.Routed.setHistory {worker : WorkerState E P W}
    (h : worker.Routed D allowed o w) {vehicle : VehicleId} {lane : Option (List (RawEvent P))}
    (hhome : lane.isSome → D.Home o w vehicle) :
    ({ worker with histories := Function.update worker.histories vehicle lane } :
      WorkerState E P W).Routed D allowed o w := by
  refine { h with histories := fun other lane' hlane => ?_ }
  dsimp only at hlane
  obtain rfl | hne := eq_or_ne other vehicle
  · rw [Function.update_self] at hlane
    exact hhome (by rw [hlane]; rfl)
  · rw [Function.update_of_ne hne] at hlane
    exact h.histories other lane' hlane

theorem WorkerState.Routed.setTrip {worker : WorkerState E P W} (h : worker.Routed D allowed o w)
    {vehicle : VehicleId} {trip : Option (Trip E P)} (hhome : trip.isSome → D.Home o w vehicle) :
    ({ worker with trips := Function.update worker.trips vehicle trip } :
      WorkerState E P W).Routed D allowed o w := by
  refine { h with trips := fun other trip' htrip => ?_ }
  dsimp only at htrip
  obtain rfl | hne := eq_or_ne other vehicle
  · rw [Function.update_self] at htrip
    exact hhome (by rw [htrip]; rfl)
  · rw [Function.update_of_ne hne] at htrip
    exact h.trips other trip' htrip

theorem WorkerState.Routed.idle {worker : WorkerState E P W} (h : worker.Routed D allowed o w) :
    ({ worker with stage := .idle, message := none } : WorkerState E P W).Routed D allowed o w :=
  { h with hand := by rintro d ⟨⟩ }

theorem Pod.routed_new : (new : Pod E P W).Routed D allowed o where
  forwarding := by simp [new]
  workers _ := WorkerState.routed_new
  queue := by simp [new]
  batch_le := le_rfl

theorem Pod.Routed.setForwarding {pod : Pod E P W} (h : pod.Routed D allowed o) {partition : ℕ}
    {held : Option (Delivery P W)} (hheld : ∀ delivery, held = some delivery →
      D.Carries allowed delivery ∧ D.pod delivery.payload.vehicleId = o ∧
        delivery.payload.vehicleId.partition = partition) :
    ({ pod with forwarding := Function.update pod.forwarding partition held } :
      Pod E P W).Routed D allowed o := by
  refine { h with forwarding := fun other delivery hdelivery => ?_ }
  dsimp only at hdelivery
  obtain rfl | hne := eq_or_ne other partition
  · rw [Function.update_self] at hdelivery
    exact hheld delivery hdelivery
  · rw [Function.update_of_ne hne] at hdelivery
    exact h.forwarding other delivery hdelivery

theorem Pod.Routed.setWorker {pod : Pod E P W} (h : pod.Routed D allowed o)
    {worker : WorkerState E P W} (hworker : worker.Routed D allowed o w) :
    ({ pod with workers := Function.update pod.workers w worker } : Pod E P W).Routed D allowed o :=
  { h with workers := (Function.forall_update_iff _ fun w (worker : WorkerState E P W) =>
      worker.Routed D allowed o w).mpr ⟨hworker, fun w' _ => h.workers w'⟩ }

namespace Fleet

theorem routed_new : (new : Fleet E P W).Routed D allowed where
  stored := by simp [new]
  pods _ := Pod.routed_new

theorem Routed.setPod (h : f.Routed D allowed) {pod : Pod E P W} (hpod : pod.Routed D allowed o) :
    (f.setPod o pod).Routed D allowed where
  stored := h.stored
  pods := (Function.forall_update_iff _ fun o (pod : Pod E P W) =>
    pod.Routed D allowed o).mpr ⟨hpod, fun o' _ => h.pods o'⟩

theorem Routed.setWorker (h : f.Routed D allowed) {worker : WorkerState E P W}
    (hworker : worker.Routed D allowed o w) : (f.setWorker o w worker).Routed D allowed :=
  h.setPod ((h.pods o).setWorker hworker)

theorem Routed.setRecord (h : f.Routed D allowed) (vehicle : VehicleId) (record : Record E P) :
    (f.setRecord vehicle record).Routed D allowed := { h with }

theorem Routed.acknowledge (h : f.Routed D allowed) (message : Message W)
    (outcome : Option Processed) : (f.acknowledge message outcome).Routed D allowed := { h with }

theorem Routed.settle [DecidableEq W] (h : f.Routed D allowed) (message : Message W)
    (outcome : Option Processed) : (f.settle message outcome).Routed D allowed := by
  unfold Fleet.settle
  split
  · exact { h with stored := fun m hm => h.stored m (List.mem_of_mem_erase hm) }
  · exact h

end Fleet

/-- The event at hand stays at hand while it is worked on, and nothing else is sent. -/
theorem WorkStep.frame [Geometry P] [DecidableEq P] {c : Settings} {s s' : Local E P}
    (h : WorkStep c s s') : ∃ d, s.stage.dispatch = some d ∧ s'.stage.dispatch = some d ∧
      ∃ sent, s'.queue = s.queue ++ sent ∧
        ∀ entry ∈ sent, entry.1.vehicleId = d.payload.vehicleId := by
  have hgate : ∀ (s : Local E P) (lane : List (RawEvent P)) (d : Dispatch P),
      (s.gate c lane d).stage.dispatch = some d ∧ (s.gate c lane d).queue = s.queue := by
    intro s lane d
    unfold Local.gate
    split <;> exact ⟨rfl, rfl⟩
  cases h with
  | warm d lane hstage hlane hwarmed =>
    obtain ⟨hdispatch, hqueue⟩ := hgate { s with histories := some lane } lane d
    exact ⟨d, by rw [hstage]; rfl, hdispatch, [], by rw [hqueue, List.append_nil], by simp⟩
  | gate d lane hstage hlane =>
    obtain ⟨hdispatch, hqueue⟩ := hgate s lane d
    exact ⟨d, by rw [hstage]; rfl, hdispatch, [], by rw [hqueue, List.append_nil], by simp⟩
  | send d hstage =>
    refine ⟨d, by rw [hstage]; rfl, rfl, [(d.payload.asEvent, s.record.sends)], rfl, ?_⟩
    intro entry hentry
    rw [List.mem_singleton.mp hentry]
    rfl
  | fail d hstage =>
    exact ⟨d, Stage.dispatch_of_admitted hstage, rfl, [], (List.append_nil _).symm, by simp⟩
  | noMatch d context hstage
  | solved d context diff trip hstage
  | publish d solve hstage
  | commit d solve hstage
  | enter d hstage =>
    exact ⟨d, by rw [hstage]; rfl, rfl, [], (List.append_nil _).symm, by simp⟩

variable [Geometry P] [DecidableEq P] [DecidableEq W]

/-- **Everything stays at home**: a delivery goes to the home of its vehicle, and what a worker does
is about the vehicle at hand. -/
theorem Fleet.Routed.step {f f' : Fleet E P W} (hf : f.Routed D allowed)
    (h : FleetStep D allowed f f') : f'.Routed D allowed := by
  cases h with
  | produce partition content hcontent =>
    refine { hf with stored := fun message hmessage payload hdecode => ?_ }
    rcases List.mem_append.mp hmessage with hmessage | hmessage
    · exact hf.stored message hmessage payload hdecode
    · rw [List.mem_singleton.mp hmessage] at hdecode ⊢
      exact hcontent payload hdecode
  | pull message payload pod hmessage hdecode hpod hfree =>
    subst hpod
    obtain ⟨hpartition, hallowed⟩ := hf.stored message hmessage payload hdecode
    have hheld : ∀ delivery, some (⟨payload, message⟩ : Delivery P W) = some delivery →
        D.Carries allowed delivery ∧
          D.pod delivery.payload.vehicleId = D.owner message.partition ∧
            delivery.payload.vehicleId.partition = message.partition := by
      rintro delivery ⟨⟩
      exact ⟨⟨hdecode, hallowed⟩, by rw [Deployment.pod, hpartition], hpartition⟩
    exact hf.setPod { (hf.pods (D.owner message.partition)).setForwarding hheld with }
  | poison message hmessage hdecode hfree => exact hf.acknowledge message none
  | settle message outcome hack => exact hf.settle message outcome
  | forward o partition delivery pod worker hpod hforwarding hworker hroom =>
    subst hpod hworker
    obtain ⟨hcarries, hhome, hpartition⟩ := (hf.pods o).forwarding partition delivery hforwarding
    have hworker := (hf.pods o).workers (D.pin delivery.payload.vehicleId)
    have hfree : ∀ held, (none : Option (Delivery P W)) = some held →
        D.Carries allowed held ∧ D.pod held.payload.vehicleId = o ∧
          held.payload.vehicleId.partition = partition := by simp
    refine hf.setPod (((hf.pods o).setForwarding hfree).setWorker
      { hworker with channel := fun other hother => ?_ })
    rcases List.mem_append.mp hother with hother | hother
    · exact hworker.channel other hother
    · rw [List.mem_singleton.mp hother]
      exact ⟨hcarries, hhome, rfl⟩
  | receive o w delivery rest pod worker hpod hworker hidle hchannel =>
    subst hpod hworker
    have hworker := (hf.pods o).workers w
    obtain ⟨hcarries, hhome⟩ := hworker.channel delivery (by rw [hchannel]; simp)
    have htaken : ({ (f.pods o).workers w with
        channel := rest
        message := some delivery.message
        stage := .started delivery.dispatch } : WorkerState E P W).Routed D allowed o w := by
      refine { hworker with channel := fun other hother => hworker.channel other ?_, hand := ?_ }
      · rw [hchannel]
        exact List.mem_cons_of_mem _ hother
      · rintro d ⟨⟩
        exact ⟨hhome, hcarries.2, delivery.message, rfl, hcarries.1, rfl⟩
    exact hf.setPod { (hf.pods o).setWorker htaken with }
  | work o w d s hd hwork =>
    obtain ⟨d', hd', hstage, sent, hqueue, hsent⟩ := hwork.frame
    obtain rfl : d = d' := Option.some.inj (hd.symm.trans hd')
    have hworker := (hf.pods o).workers w
    have hhome := (hworker.hand d hd).1
    have hlane := (hworker.stay (hstage.trans hd.symm)).setHistory fun (_ : s.histories.isSome) =>
      hhome
    have hpod := (hf.pods o).setWorker (hlane.setTrip fun (_ : s.trips.isSome) => hhome)
    have hput : ({ f.pods o with
        queue := s.queue
        workers := Function.update (f.pods o).workers w { f.worker o w with
          stage := s.stage
          histories := Function.update (f.worker o w).histories d.payload.vehicleId s.histories
          trips := Function.update (f.worker o w).trips d.payload.vehicleId s.trips } } :
        Pod E P W).Routed D allowed o := by
      refine { hpod with queue := fun entry hentry => ?_, batch_le := ?_ }
      · rw [show s.queue = _ from hqueue] at hentry
        rcases List.mem_append.mp hentry with hentry | hentry
        · exact (hf.pods o).queue entry hentry
        · rw [hsent entry hentry]
          exact hhome.1
      · rw [show s.queue = _ from hqueue, List.length_append]
        exact (hf.pods o).batch_le.trans (Nat.le_add_right _ _)
    exact (hf.setPod hput).setRecord _ _
  | ack o w d outcome message hstage hmessage =>
    exact ((hf.setWorker ((hf.pods o).workers w).idle).setRecord _ _).acknowledge _ _
  | ackLost o w d outcome hstage => exact hf.setWorker ((hf.pods o).workers w).idle
  | evictLane o w vehicle => exact hf.setWorker (((hf.pods o).workers w).setHistory (by simp))
  | evictTrip o w vehicle => exact hf.setWorker (((hf.pods o).workers w).setTrip (by simp))
  | collect o n hbatch hpos hle hn => exact hf.setPod { hf.pods o with batch_le := hn }
  | append o node entry record kept hentry hrecord hmin hle =>
    have hpod : ({ f.pods o with
        written := Function.update (f.pods o).written node ((f.pods o).written node + 1) } :
        Pod E P W).Routed D allowed o := { hf.pods o with }
    exact (hf.setPod hpod).setRecord _ _
  | retry o => exact hf.setPod { hf.pods o with }
  | flush o hwritten =>
    refine hf.setPod { hf.pods o with
      workers := fun w => ((hf.pods o).workers w).stay (Stage.dispatch_reportBatch _ _)
      queue := fun entry hentry => (hf.pods o).queue entry (List.mem_of_mem_drop hentry)
      batch_le := Nat.zero_le _ }
  | restart o => exact hf.setPod Pod.routed_new

theorem FleetRuns.routed {f : Fleet E P W} (h : FleetRuns D allowed .new f) :
    f.Routed D allowed := by
  induction h with
  | refl => exact Fleet.routed_new
  | tail _ hstep ih => exact ih.step hstep

end Routed

end Routers
