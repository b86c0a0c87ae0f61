import Routers.Realtime.FleetHomes

/-!
# The lanes of a fleet

A fleet, seen from one vehicle, is the lane of that vehicle at its home: its worker, idle when it is
at an event of another, with the vehicle's part of its caches and of the writer's queue.  Whatever
the parts of the fleet do, and in any order, is a step of the lane or nothing to it.

## Main definitions

* `Stage.forVehicle`, `Fleet.lane` — the lane of a vehicle.

## Main results

* `WorkStep.lane_step`, `Fleet.lane_append` — what workers and primaries do.
* `FleetStep.lane_step` — **a step of the fleet is a step of a lane, or nothing to it.**
* `FleetRuns.lane_runs` — a run of the fleet is a run of every lane.

## References

`src/libs/routers_realtime/bin/orchestrator.rs`.
-/

namespace Routers

open KeyedQueue

variable {E P W : Type}

/-! ### Stages -/

namespace Stage

/-- How far the worker is, as a vehicle sees it: idle, if the event at hand is another's. -/
def forVehicle (vehicle : VehicleId) (stage : Stage E P) : Stage E P :=
  match stage.dispatch with
  | some d => if d.payload.vehicleId = vehicle then stage else .idle
  | none => .idle

theorem forVehicle_of_dispatch {stage : Stage E P} {d : Dispatch P} (h : stage.dispatch = some d) :
    stage.forVehicle d.payload.vehicleId = stage := by
  rw [forVehicle, h]
  exact if_pos rfl

theorem forVehicle_of_ne {stage : Stage E P} {d : Dispatch P} (h : stage.dispatch = some d)
    {vehicle : VehicleId} (hne : d.payload.vehicleId ≠ vehicle) :
    stage.forVehicle vehicle = .idle := by
  rw [forVehicle, h]
  exact if_neg hne

@[simp] theorem forVehicle_idle (vehicle : VehicleId) :
    (idle : Stage E P).forVehicle vehicle = .idle := rfl

/-- A vehicle sees its own tickets reported. -/
theorem forVehicle_reportBatch (stage : Stage E P) (batch : List (RawEvent P × ℕ))
    (vehicle : VehicleId) : (stage.reportBatch batch).forVehicle vehicle =
      (stage.forVehicle vehicle).report ((batch.filter (ofVehicle vehicle)).map Prod.snd) := by
  cases hstage : stage.dispatch with
  | none => rw [forVehicle, forVehicle, dispatch_reportBatch, hstage, report]; rintro _ _ ⟨⟩
  | some d =>
    by_cases hvehicle : d.payload.vehicleId = vehicle
    · subst hvehicle
      have h : (stage.reportBatch batch).dispatch = some d := by rw [dispatch_reportBatch, hstage]
      rw [forVehicle_of_dispatch h, forVehicle_of_dispatch hstage, reportBatch, hstage]
    · have h : (stage.reportBatch batch).dispatch = some d := by rw [dispatch_reportBatch, hstage]
      rw [forVehicle_of_ne h hvehicle, forVehicle_of_ne hstage hvehicle, report]
      rintro _ _ ⟨⟩

end Stage

/-! ### The lane of a vehicle -/

/-- The lane of a vehicle, from what its worker sees of it. -/
def Local.lane (s : Local E P) (vehicle : VehicleId) (batch written : ℕ) : Pipeline E P where
  stage := s.stage.forVehicle vehicle
  histories := s.histories
  trips := s.trips
  queue := s.queue.filter (ofVehicle vehicle)
  batch := batch
  written := written
  archive := s.record.archive
  archived := s.record.archived
  published := s.record.published
  committed := s.record.committed
  entries := s.record.entries
  returned := s.record.returned
  acked := s.record.acked
  solves := s.record.solves
  sends := s.record.sends

/-- How much of a vehicle's part of the batch is written. -/
def Pod.writtenOf (D : Deployment P W) (pod : Pod E P W) (vehicle : VehicleId) : ℕ :=
  before (ofVehicle vehicle) (pod.pipeline D (D.primary vehicle))
    (pod.written (D.primary vehicle))

/-- The lane of a vehicle in its pod. -/
def Pod.lane (D : Deployment P W) (pod : Pod E P W) (record : Record E P) (vehicle : VehicleId) :
    Pipeline E P :=
  let worker := pod.workers (D.pin vehicle)
  let s : Local E P :=
    ⟨worker.stage, worker.histories vehicle, worker.trips vehicle, pod.queue, record⟩
  s.lane vehicle (before (ofVehicle vehicle) pod.queue pod.batch) (pod.writtenOf D vehicle)

/-- The lane of a vehicle. -/
def Fleet.lane (D : Deployment P W) (f : Fleet E P W) (vehicle : VehicleId) : Pipeline E P :=
  (f.pods (D.pod vehicle)).lane D (f.records vehicle) vehicle

section Lane

variable {D : Deployment P W} {f : Fleet E P W} {v : VehicleId} {o w : ℕ}

theorem Fleet.lane_new (v : VehicleId) : (new : Fleet E P W).lane D v = .new := by
  have hwritten : (Pod.new : Pod E P W).writtenOf D v = 0 := before_zero _ _
  have hbatch : before (ofVehicle v) (Pod.new : Pod E P W).queue (Pod.new : Pod E P W).batch = 0 :=
    before_zero _ _
  have hpods : (new : Fleet E P W).pods (D.pod v) = .new := rfl
  rw [Fleet.lane, Pod.lane, hpods, hwritten, hbatch]
  rfl

theorem Fleet.lane_setPod_of_ne (h : o ≠ D.pod v) (pod : Pod E P W) :
    (f.setPod o pod).lane D v = f.lane D v := by
  have hpods : (f.setPod o pod).pods (D.pod v) = f.pods (D.pod v) :=
    Function.update_of_ne h.symm _ _
  rw [lane, hpods]
  rfl

theorem Fleet.pods_setPod_self (o : ℕ) (pod : Pod E P W) : (f.setPod o pod).pods o = pod :=
  Function.update_self ..

theorem Fleet.lane_setPod_self (pod : Pod E P W) :
    (f.setPod (D.pod v) pod).lane D v = pod.lane D (f.records v) v := by
  rw [lane, pods_setPod_self]
  rfl

theorem Fleet.lane_setRecord_of_ne {u : VehicleId} (h : u ≠ v) (record : Record E P) :
    (f.setRecord u record).lane D v = f.lane D v := by
  have hrecords : (f.setRecord u record).records v = f.records v := Function.update_of_ne h.symm _ _
  rw [lane, hrecords]
  rfl

theorem Fleet.lane_setRecord_self (record : Record E P) :
    (f.setRecord v record).lane D v = (f.pods (D.pod v)).lane D record v := by
  have hrecords : (f.setRecord v record).records v = record := Function.update_self ..
  rw [lane, hrecords]
  rfl

theorem Fleet.lane_setRecord_acked {record : Record E P} (hrecord : f.records v = record)
    (acked : List (Payload P × Processed)) :
    (f.setRecord v { record with acked := acked }).lane D v
      = { f.lane D v with acked := acked } := by
  subst hrecord
  rw [lane_setRecord_self]
  rfl

theorem Fleet.lane_congr {f' : Fleet E P W} (hpods : f'.pods = f.pods)
    (hrecords : f'.records = f.records) : f'.lane D v = f.lane D v := by
  rw [lane, hpods, hrecords, lane]

theorem Fleet.lane_acknowledge (message : Message W) (outcome : Option Processed) :
    (f.acknowledge message outcome).lane D v = f.lane D v := lane_congr rfl rfl

theorem Fleet.lane_settle [DecidableEq W] (message : Message W) (outcome : Option Processed) :
    (f.settle message outcome).lane D v = f.lane D v := by
  unfold settle
  split
  · exact lane_congr rfl rfl
  · rfl

/-- A vehicle sees of its pod the writer, and of its worker what that has to do with the vehicle. -/
theorem Pod.lane_congr {pod pod' : Pod E P W} {record : Record E P}
    (hstage : (pod'.workers (D.pin v)).stage.forVehicle v
      = (pod.workers (D.pin v)).stage.forVehicle v)
    (hhistories : (pod'.workers (D.pin v)).histories v = (pod.workers (D.pin v)).histories v)
    (htrips : (pod'.workers (D.pin v)).trips v = (pod.workers (D.pin v)).trips v)
    (hqueue : pod'.queue = pod.queue) (hbatch : pod'.batch = pod.batch)
    (hwritten : pod'.written = pod.written) :
    pod'.lane D record v = pod.lane D record v := by
  simp only [lane, writtenOf, pipeline, Local.lane, hstage, hhistories, htrips, hqueue, hbatch,
    hwritten]

/-- What happens to another worker is nothing to a vehicle, nor is what its own does for others. -/
theorem Pod.lane_update {pod pod' : Pod E P W} {record : Record E P} {worker : WorkerState E P W}
    (hworkers : pod'.workers = Function.update pod.workers w worker)
    (hqueue : pod'.queue = pod.queue) (hbatch : pod'.batch = pod.batch)
    (hwritten : pod'.written = pod.written)
    (h : w = D.pin v → worker.stage.forVehicle v = (pod.workers w).stage.forVehicle v ∧
      worker.histories v = (pod.workers w).histories v ∧
      worker.trips v = (pod.workers w).trips v) :
    pod'.lane D record v = pod.lane D record v := by
  obtain rfl | hne := eq_or_ne w (D.pin v)
  · obtain ⟨hstage, hhistories, htrips⟩ := h rfl
    apply lane_congr _ _ _ hqueue hbatch hwritten
    all_goals rw [hworkers, Function.update_self]
    exacts [hstage, hhistories, htrips]
  · apply lane_congr _ _ _ hqueue hbatch hwritten
    all_goals rw [hworkers, Function.update_of_ne hne.symm]

/-- Where nothing happens to the writer, the lane is as its worker is. -/
theorem Fleet.lane_setPod_workers {pod : Pod E P W} (hqueue : pod.queue = (f.pods (D.pod v)).queue)
    (hbatch : pod.batch = (f.pods (D.pod v)).batch)
    (hwritten : pod.written = (f.pods (D.pod v)).written) :
    (f.setPod (D.pod v) pod).lane D v = { f.lane D v with
      stage := (pod.workers (D.pin v)).stage.forVehicle v
      histories := (pod.workers (D.pin v)).histories v
      trips := (pod.workers (D.pin v)).trips v } := by
  rw [lane_setPod_self]
  simp only [lane, Pod.lane, Local.lane, Pod.writtenOf, Pod.pipeline, hqueue, hbatch, hwritten]

theorem Fleet.lane_setWorker_self (worker : WorkerState E P W) :
    (f.setWorker (D.pod v) (D.pin v) worker).lane D v = { f.lane D v with
      stage := worker.stage.forVehicle v
      histories := worker.histories v
      trips := worker.trips v } := by
  rw [setWorker, lane_setPod_workers]
  · simp only [Function.update_self]
  all_goals rfl

/-- The vehicle of the event at hand sees how far its worker is. -/
theorem Local.lane_eq {s : Local E P} {d : Dispatch P} (h : s.stage.dispatch = some d) (n m : ℕ) :
    s.lane d.payload.vehicleId n m = { s.lane d.payload.vehicleId n m with stage := s.stage } := by
  rw [lane, Stage.forVehicle_of_dispatch h]

theorem Local.gate_lane [Geometry P] [DecidableEq P] (c : Settings) (s : Local E P)
    (lane : List (RawEvent P)) (d : Dispatch P) (n m : ℕ) :
    (s.gate c lane d).lane d.payload.vehicleId n m
      = (s.lane d.payload.vehicleId n m).gate c lane d := by
  unfold gate Pipeline.gate
  split
  · exact lane_eq rfl n m
  · exact lane_eq rfl n m

/-- What a worker does is a step of the lane of the vehicle at hand. -/
theorem WorkStep.lane_step [Geometry P] [DecidableEq P] {c : Settings}
    {allowed : Payload P → Prop} {s s' : Local E P} {d : Dispatch P} (h : WorkStep c s s')
    (hd : s.stage.dispatch = some d) (n m : ℕ) :
    Step c allowed (s.lane d.payload.vehicleId n m) (s'.lane d.payload.vehicleId n m) := by
  obtain ⟨d', hd', hstay, -⟩ := h.frame
  obtain rfl : d = d' := Option.some.inj (hd.symm.trans hd')
  have hlane := Local.lane_eq hd n m
  have hlane' := Local.lane_eq hstay n m
  cases h with
  | warm d' lane hstage hnone hwarmed =>
    obtain rfl : d = d' := by rw [hstage] at hd; exact (Option.some.inj hd).symm
    rw [Local.gate_lane]
    have hwarm : ({ s with histories := some lane } : Local E P).lane d.payload.vehicleId n m
        = { s.lane d.payload.vehicleId n m with histories := some lane } := rfl
    rw [hwarm, hlane]
    exact Step.warm d lane hstage hnone hwarmed
  | gate d' lane hstage hsome =>
    obtain rfl : d = d' := by rw [hstage] at hd; exact (Option.some.inj hd).symm
    rw [Local.gate_lane, hlane]
    exact Step.gate d lane hstage hsome
  | noMatch d' context hstage =>
    obtain rfl : d = d' := by rw [hstage] at hd; exact (Option.some.inj hd).symm
    rw [hlane, hlane']
    exact Step.noMatch d context hstage
  | solved d' context diff trip hstage =>
    obtain rfl : d = d' := by rw [hstage] at hd; exact (Option.some.inj hd).symm
    rw [hlane, hlane']
    exact Step.solved d context diff trip hstage
  | publish d' solve hstage =>
    obtain rfl : d = d' := by rw [hstage] at hd; exact (Option.some.inj hd).symm
    rw [hlane, hlane']
    exact Step.publish d solve hstage
  | commit d' solve hstage =>
    obtain rfl : d = d' := by rw [hstage] at hd; exact (Option.some.inj hd).symm
    rw [hlane, hlane']
    exact Step.commit d solve hstage
  | send d' hstage =>
    obtain rfl : d = d' := by rw [hstage] at hd; exact (Option.some.inj hd).symm
    rw [hlane, hlane']
    have hqueue : (s.queue ++ [(d.payload.asEvent, s.record.sends)]).filter
        (ofVehicle d.payload.vehicleId)
        = s.queue.filter (ofVehicle d.payload.vehicleId)
          ++ [(d.payload.asEvent, s.record.sends)] := by
      rw [List.filter_append, List.filter_cons_of_pos (by simp [ofVehicle, Payload.asEvent]),
        List.filter_nil]
    simp only [Local.lane, hqueue]
    exact Step.send d hstage
  | enter d' hstage =>
    obtain rfl : d = d' := by rw [hstage] at hd; exact (Option.some.inj hd).symm
    rw [hlane, hlane']
    exact Step.enter d hstage
  | fail d' hstage =>
    have hd' := Stage.dispatch_of_admitted hstage
    obtain rfl : d = d' := Option.some.inj (hd.symm.trans hd')
    rw [hlane, hlane']
    exact Step.fail d hstage

/-- What is nothing to a vehicle in its pod is nothing to its lane. -/
theorem Fleet.lane_setPod {pod : Pod E P W}
    (h : o = D.pod v → pod.lane D (f.records v) v = (f.pods o).lane D (f.records v) v) :
    (f.setPod o pod).lane D v = f.lane D v := by
  obtain rfl | hne := eq_or_ne o (D.pod v)
  · rw [lane_setPod_self, h rfl, lane]
  · exact lane_setPod_of_ne hne pod

/-- A worker that lets go of an event has nothing for another vehicle then either. -/
theorem Fleet.lane_idle {d : Dispatch P} (hd : (f.worker o w).stage.dispatch = some d)
    (hv : d.payload.vehicleId ≠ v) :
    (f.setWorker o w { f.worker o w with stage := .idle, message := none }).lane D v
      = f.lane D v := by
  refine lane_setPod fun _ => Pod.lane_update rfl rfl rfl rfl fun _ => ⟨?_, rfl, rfl⟩
  exact (Stage.forVehicle_idle v).trans (Stage.forVehicle_of_ne hd hv).symm

/-- A vehicle's part of a primary's part of the batch is its part of the batch. -/
theorem Pod.filter_pipeline (pod : Pod E P W) (v : VehicleId) :
    (pod.pipeline D (D.primary v)).filter (ofVehicle v)
      = (pod.queue.take pod.batch).filter (ofVehicle v) := by
  rw [pipeline, List.filter_filter]
  apply List.filter_congr
  intro entry _
  rw [Bool.and_eq_left_iff_imp]
  intro hv
  rw [ofVehicle, decide_eq_true_eq] at hv
  rw [hv, decide_eq_true_eq]

/-- The lane's writer takes up the vehicle's part of the batch. -/
theorem Fleet.lane_take (f : Fleet E P W) (v : VehicleId) :
    (f.lane D v).queue.take (f.lane D v).batch
      = ((f.pods (D.pod v)).queue.take (f.pods (D.pod v)).batch).filter (ofVehicle v) :=
  (filter_take _ _ _).symm

variable [Geometry P] [DecidableEq P] {allowed : Payload P → Prop}

/-- What a primary writes is appended to the lane's archive, or nothing to it. -/
theorem Fleet.lane_append (hf : f.Routed D allowed) {node : ℕ} {entry : RawEvent P × ℕ}
    {record : Record E P} {kept : ℕ}
    (hentry : ((f.pods o).pipeline D node)[(f.pods o).written node]? = some entry)
    (hrecord : f.records entry.1.vehicleId = record)
    (hmin : min D.settings.history (record.archive.length + 1) ≤ kept)
    (hle : kept ≤ record.archive.length + 1) (v : VehicleId) {f' : Fleet E P W}
    (hf' : f' = (f.setPod o
      { f.pods o with
        written := Function.update (f.pods o).written node
          ((f.pods o).written node + 1) }).setRecord entry.1.vehicleId
      { record with
        archive := (record.archive ++ [entry.1.store]).drop (record.archive.length + 1 - kept)
        archived := record.archived ++ [entry.1.store] }) :
    f'.lane D v = f.lane D v ∨
      Step D.settings (fun payload => payload.vehicleId = v ∧ allowed payload) (f.lane D v)
        (f'.lane D v) := by
  obtain ⟨hmem, hnode⟩ := List.mem_filter.mp (List.mem_of_getElem? hentry)
  have ho := (hf.pods o).queue entry (List.mem_of_mem_take hmem)
  rw [decide_eq_true_eq] at hnode
  subst hf'
  by_cases hv : entry.1.vehicleId = v
  · subst hv hnode ho hrecord
    have hown : ofVehicle entry.1.vehicleId entry := decide_eq_true rfl
    have hnext := getElem?_filter (ofVehicle entry.1.vehicleId) hentry hown
    have hwritten := before_succ (ofVehicle entry.1.vehicleId) hentry
    rw [if_pos hown] at hwritten
    rw [Pod.filter_pipeline, ← lane_take] at hnext
    right
    have hpod : ({ f.pods (D.pod entry.1.vehicleId) with
        written := Function.update (f.pods (D.pod entry.1.vehicleId)).written
          (D.primary entry.1.vehicleId)
          ((f.pods (D.pod entry.1.vehicleId)).written (D.primary entry.1.vehicleId) + 1) } :
        Pod E P W).writtenOf D entry.1.vehicleId = (f.lane D entry.1.vehicleId).written + 1 := by
      simp only [Pod.writtenOf, Function.update_self]
      exact hwritten
    rw [lane_setRecord_self, pods_setPod_self, Pod.lane]
    simp only [hpod]
    exact Step.append entry kept hnext hmin hle
  · rw [lane_setRecord_of_ne hv]
    refine Or.inl (lane_setPod fun _ => ?_)
    have hnot : ¬ ofVehicle v entry := fun h => hv (of_decide_eq_true h)
    have hwritten := before_succ (ofVehicle v) hentry
    rw [if_neg hnot, Nat.add_zero] at hwritten
    have hpod : ({ f.pods o with
        written := Function.update (f.pods o).written node ((f.pods o).written node + 1) } :
        Pod E P W).writtenOf D v = (f.pods o).writtenOf D v := by
      simp only [Pod.writtenOf]
      obtain rfl | hne := eq_or_ne node (D.primary v)
      · rw [Function.update_self]
        exact hwritten
      · rw [Function.update_of_ne hne.symm]
        rfl
    simp only [Pod.lane, hpod]

/-- A worker's step is a step of the lane of the vehicle at hand, and nothing to another. -/
theorem Fleet.lane_put (hf : f.Routed D allowed) {d : Dispatch P} {s : Local E P}
    (hd : (f.worker o w).stage.dispatch = some d)
    (hwork : WorkStep D.settings (f.view o w d.payload.vehicleId) s) (v : VehicleId) :
    (f.put o w d.payload.vehicleId s).lane D v = f.lane D v ∨
      Step D.settings (fun payload => payload.vehicleId = v ∧ allowed payload) (f.lane D v)
        ((f.put o w d.payload.vehicleId s).lane D v) := by
  obtain ⟨d', hd', hstay, sent, hqueue, hsent⟩ := hwork.frame
  obtain rfl : d = d' := Option.some.inj (hd.symm.trans hd')
  have hbatch := (hf.pods o).batch_le
  obtain ⟨rfl, rfl⟩ := (((hf.pods o).workers w).hand d hd).1
  -- what is sent comes behind the batch
  have hbefore : before (ofVehicle v) s.queue (f.pods (D.pod d.payload.vehicleId)).batch
      = before (ofVehicle v) (f.pods (D.pod d.payload.vehicleId)).queue
        (f.pods (D.pod d.payload.vehicleId)).batch := by
    rw [hqueue]
    exact before_append_of_le _ hbatch
  have htake : s.queue.take (f.pods (D.pod d.payload.vehicleId)).batch
      = (f.pods (D.pod d.payload.vehicleId)).queue.take
        (f.pods (D.pod d.payload.vehicleId)).batch := by
    rw [hqueue]
    exact List.take_append_of_le_length hbatch
  by_cases hv : d.payload.vehicleId = v
  · subst hv
    right
    rw [put, lane_setRecord_self, pods_setPod_self]
    simp only [Pod.lane, Pod.writtenOf, Pod.pipeline, Function.update_self, hbefore, htake]
    exact hwork.lane_step hd (f.lane D d.payload.vehicleId).batch
      (f.lane D d.payload.vehicleId).written
  · have hfilter : s.queue.filter (ofVehicle v)
        = (f.pods (D.pod d.payload.vehicleId)).queue.filter (ofVehicle v) := by
      have hnil : sent.filter (ofVehicle v) = [] := by
        apply List.filter_eq_nil_iff.mpr
        intro entry hentry hown
        exact hv ((hsent entry hentry).symm.trans (of_decide_eq_true hown))
      rw [hqueue, List.filter_append, hnil, List.append_nil]
      rfl
    have hworker : ({ f.pods (D.pod d.payload.vehicleId) with
        workers := Function.update (f.pods (D.pod d.payload.vehicleId)).workers
          (D.pin d.payload.vehicleId)
          { f.worker (D.pod d.payload.vehicleId) (D.pin d.payload.vehicleId) with
            stage := s.stage
            histories := Function.update _ d.payload.vehicleId s.histories
            trips := Function.update _ d.payload.vehicleId s.trips } } : Pod E P W).lane D
          (f.records v) v = (f.pods (D.pod d.payload.vehicleId)).lane D (f.records v) v :=
      Pod.lane_update rfl rfl rfl rfl fun _ =>
        ⟨(Stage.forVehicle_of_ne hstay hv).trans (Stage.forVehicle_of_ne hd hv).symm,
          Function.update_of_ne (Ne.symm hv) _ _, Function.update_of_ne (Ne.symm hv) _ _⟩
    rw [put, lane_setRecord_of_ne hv]
    refine Or.inl (lane_setPod fun _ => Eq.trans ?_ hworker)
    simp only [Pod.lane, Local.lane, Pod.writtenOf, Pod.pipeline, hbefore, htake, hfilter]
    rfl

/-- **A step of the fleet is a step of a vehicle's lane, or nothing to it.** -/
theorem FleetStep.lane_step [DecidableEq W] {f' : Fleet E P W} (hf : f.Routed D allowed)
    (h : FleetStep D allowed f f') (v : VehicleId) :
    f'.lane D v = f.lane D v ∨
      Step D.settings (fun payload => payload.vehicleId = v ∧ allowed payload) (f.lane D v)
        (f'.lane D v) := by
  cases h with
  | produce partition content hcontent => exact Or.inl (Fleet.lane_congr rfl rfl)
  | pull message payload pod hmessage hdecode hpod hfree =>
    subst hpod
    exact Or.inl (Fleet.lane_setPod fun _ => Pod.lane_congr rfl rfl rfl rfl rfl rfl)
  | poison message hmessage hdecode hfree => exact Or.inl (Fleet.lane_acknowledge message none)
  | settle message outcome hack => exact Or.inl (Fleet.lane_settle message outcome)
  | forward o partition delivery pod worker hpod hforwarding hworker hroom =>
    subst hpod hworker
    exact Or.inl (Fleet.lane_setPod fun _ =>
      Pod.lane_update rfl rfl rfl rfl fun _ => ⟨rfl, rfl, rfl⟩)
  | receive o w delivery rest pod worker hpod hworker hidle hchannel =>
    subst hpod hworker
    obtain ⟨hcarries, rfl, rfl⟩ := ((hf.pods o).workers w).channel delivery (by simp [hchannel])
    by_cases hv : delivery.payload.vehicleId = v
    · subst hv
      right
      rw [Fleet.lane_setPod_workers]
      · have hstarted : (Stage.started delivery.dispatch : Stage E P).forVehicle
            delivery.payload.vehicleId = .started delivery.dispatch :=
          Stage.forVehicle_of_dispatch (d := delivery.dispatch) rfl
        simp only [Function.update_self, hstarted]
        have hstage : (f.lane D delivery.payload.vehicleId).stage = .idle :=
          (congrArg (Stage.forVehicle _) hidle).trans (Stage.forVehicle_idle _)
        exact Step.deliver delivery.dispatch hstage ⟨rfl, hcarries.2⟩
      all_goals rfl
    · refine Or.inl (Fleet.lane_setPod fun _ => Pod.lane_update rfl rfl rfl rfl fun _ => ?_)
      refine ⟨?_, rfl, rfl⟩
      rw [hidle, Stage.forVehicle_of_ne (d := delivery.dispatch) rfl hv, Stage.forVehicle_idle]
  | work o w d s hd hwork => exact Fleet.lane_put hf hd hwork v
  | ack o w d outcome message hstage hmessage =>
    have hd : (f.worker o w).stage.dispatch = some d := by rw [hstage]; rfl
    obtain ⟨rfl, rfl⟩ := (((hf.pods o).workers w).hand d hd).1
    rw [Fleet.lane_acknowledge]
    by_cases hv : d.payload.vehicleId = v
    · subst hv
      have hlane : (f.lane D d.payload.vehicleId).stage = .finished d outcome :=
        (Stage.forVehicle_of_dispatch hd).trans hstage
      right
      rw [Fleet.lane_setRecord_acked, Fleet.lane_setWorker_self]
      · exact Step.ack d outcome hlane
      · rfl
    · rw [Fleet.lane_setRecord_of_ne hv]
      exact Or.inl (Fleet.lane_idle hd hv)
  | ackLost o w d outcome hstage =>
    have hd : (f.worker o w).stage.dispatch = some d := by rw [hstage]; rfl
    obtain ⟨rfl, rfl⟩ := (((hf.pods o).workers w).hand d hd).1
    by_cases hv : d.payload.vehicleId = v
    · subst hv
      have hlane : (f.lane D d.payload.vehicleId).stage = .finished d outcome :=
        (Stage.forVehicle_of_dispatch hd).trans hstage
      right
      rw [Fleet.lane_setWorker_self]
      exact Step.ackLost d outcome hlane
    · exact Or.inl (Fleet.lane_idle hd hv)
  | evictLane o w vehicle =>
    by_cases hhome : vehicle = v ∧ D.Home o w v
    · obtain ⟨rfl, rfl, rfl⟩ := hhome
      right
      simp only [Fleet.lane_setWorker_self, Function.update_self]
      exact Step.evictLane
    · refine Or.inl (Fleet.lane_setPod fun ho => Pod.lane_update rfl rfl rfl rfl fun hw => ?_)
      have hne : v ≠ vehicle := fun h => hhome ⟨h.symm, ho.symm, hw.symm⟩
      exact ⟨rfl, Function.update_of_ne hne _ _, rfl⟩
  | evictTrip o w vehicle =>
    by_cases hhome : vehicle = v ∧ D.Home o w v
    · obtain ⟨rfl, rfl, rfl⟩ := hhome
      right
      simp only [Fleet.lane_setWorker_self, Function.update_self]
      exact Step.evictTrip
    · refine Or.inl (Fleet.lane_setPod fun ho => Pod.lane_update rfl rfl rfl rfl fun hw => ?_)
      have hne : v ≠ vehicle := fun h => hhome ⟨h.symm, ho.symm, hw.symm⟩
      exact ⟨rfl, rfl, Function.update_of_ne hne _ _⟩
  | collect o n hbatch hpos hle hn =>
    obtain rfl | ho := eq_or_ne o (D.pod v)
    · right
      have hidle : (f.lane D v).batch = 0 := by
        change before _ _ (f.pods (D.pod v)).batch = 0
        rw [hbatch, before_zero]
      rw [Fleet.lane_setPod_self]
      simp only [Pod.lane, Local.lane, Pod.writtenOf, before_zero]
      exact Step.collect (before (ofVehicle v) (f.pods (D.pod v)).queue n) hidle (before_le _ _ _)
    · exact Or.inl (Fleet.lane_setPod_of_ne ho _)
  | append o node entry record kept hentry hrecord hmin hle =>
    exact Fleet.lane_append hf hentry hrecord hmin hle v rfl
  | retry o =>
    obtain rfl | ho := eq_or_ne o (D.pod v)
    · right
      rw [Fleet.lane_setPod_self]
      simp only [Pod.lane, Local.lane, Pod.writtenOf, before_zero]
      exact Step.retry
    · exact Or.inl (Fleet.lane_setPod_of_ne ho _)
  | flush o hwritten =>
    obtain rfl | ho := eq_or_ne o (D.pod v)
    · right
      have hdone : (f.lane D v).written = (f.lane D v).batch := by
        change before _ _ _ = before _ _ _
        rw [hwritten, before_eq_of_le _ le_rfl, Pod.filter_pipeline, before,
          List.countP_eq_length_filter]
      have hstep : Step D.settings (fun payload => payload.vehicleId = v ∧ allowed payload)
          (f.lane D v) _ := Step.flush hdone
      rw [Fleet.lane_setPod_self]
      rw [Fleet.lane_take] at hstep
      simp only [Pod.lane, Local.lane, Pod.writtenOf, before_zero, filter_drop,
        Stage.forVehicle_reportBatch]
      exact hstep
    · exact Or.inl (Fleet.lane_setPod_of_ne ho _)
  | restart o =>
    obtain rfl | ho := eq_or_ne o (D.pod v)
    · right
      rw [Fleet.lane_setPod_self]
      simp only [Pod.lane, Local.lane, Pod.writtenOf, Pod.new, WorkerState.new, before_zero,
        Stage.forVehicle_idle, List.filter_nil]
      exact Step.restart
    · exact Or.inl (Fleet.lane_setPod_of_ne ho _)

/-- **A run of the fleet is a run of every lane**, of the events of its vehicle. -/
theorem FleetRuns.lane_runs [DecidableEq W] (h : FleetRuns (E := E) D allowed .new f)
    (v : VehicleId) :
    Runs D.settings (fun payload => payload.vehicleId = v ∧ allowed payload) .new (f.lane D v) := by
  induction h with
  | refl => rw [Fleet.lane_new]
  | tail hrun hstep ih =>
    obtain heq | hlane := hstep.lane_step (FleetRuns.routed hrun) v
    · rwa [heq]
    · exact ih.tail hlane

end Lane

end Routers
