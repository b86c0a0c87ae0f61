import Routers.Library.KeyedQueue
import Routers.Realtime.Ingest
import Routers.Realtime.Worker

/-!
# The fleet

A fleet of pods consumes the raw streams.  In a pod, a forwarder for each partition of its block
pulls the partition's consumer, decodes what it gets, and hands it to the worker that the vehicle is
pinned to, over a channel of bounded length.  A worker takes the events out of its channel one at a
time, runs the pipeline over each until it succeeds, and acknowledges it; the broker lets go of the
message when the acknowledgement arrives, and until then can deliver it again at any time.  One
writer in each pod archives what the workers send it, in batches that go to several primaries at
once.

The model is of the whole fleet, and a step is what one of its parts does from one point where it
waits to the next, in any order.

## Main definitions

* `Message`, `Delivery`, `Record` — what the broker holds, and what has happened to a vehicle.
* `Deployment` — how a fleet is set up.
* `Pod`, `Fleet` — all there is of a fleet.
* `WorkStep` — what a worker does with the event at hand.
* `FleetStep`, `FleetRuns` — what can happen, and whole runs.

## References

`src/libs/routers_realtime/bin/orchestrator.rs` and `src/libs/routers_realtime/src/ingest.rs`.
-/

namespace Routers

open KeyedQueue

variable {E P W : Type}

/-! ### Messages -/

/-- A message as the broker stores it, with its place in the stream. -/
structure Message (W : Type) where
  partition : ℕ
  revision : ℕ
  content : W
  deriving DecidableEq

/-- A decoded message on its way to a worker. -/
structure Delivery (P W : Type) where
  payload : Payload P
  message : Message W

/-- What a worker goes by. -/
def Delivery.dispatch (delivery : Delivery P W) : Dispatch P :=
  ⟨delivery.payload, delivery.message.revision⟩

/-- What there is of a vehicle outside the pods: its archive, and what has happened. -/
structure Record (E P : Type) where
  archive : List (StoredEvent P)
  archived : List (StoredEvent P)
  published : List (Solve E P)
  committed : List (Solve E P)
  entries : List (RawEvent P)
  returned : List (Payload P × Processed)
  acked : List (Payload P × Processed)
  solves : ℕ
  sends : ℕ

/-- Nothing is known of a vehicle. -/
def Record.new : Record E P := ⟨[], [], [], [], [], [], [], 0, 0⟩

/-! ### Pods -/

/-- How a fleet is set up. -/
structure Deployment (P W : Type) where
  settings : Settings
  /-- The pods. -/
  fleet : ℕ
  /-- The workers of a pod. -/
  workers : ℕ
  /-- The raw streams. -/
  streams : ℕ
  batchSize : ℕ
  decode : W → Option (Payload P)
  /-- The primary that holds a vehicle's archive. -/
  primary : VehicleId → ℕ
  /-- The pod of a partition. -/
  owner : ℕ → ℕ
  /-- The worker a vehicle is pinned to. -/
  pin : VehicleId → ℕ
  fleet_le : 1 ≤ fleet ∧ fleet ≤ partitionCount
  workers_pos : 0 < workers
  owner_eq : owner = podOf fleet
  pin_eq : pin = fun vehicle => (mix vehicle.id).toNat % workers

/-- The length of a worker's channel. -/
def channelCapacity : ℕ := 1024

/-- The pod of a vehicle. -/
def Deployment.pod (D : Deployment P W) (vehicle : VehicleId) : ℕ := D.owner vehicle.partition

/-- A worker: the message at hand and how far it is with it, its channel, and its caches. -/
structure WorkerState (E P W : Type) where
  channel : List (Delivery P W)
  message : Option (Message W)
  stage : Stage E P
  histories : VehicleId → Option (List (RawEvent P))
  trips : VehicleId → Option (Trip E P)

/-- A pod since its start. -/
structure Pod (E P W : Type) where
  /-- What the forwarder of a partition holds until there is room in the channel. -/
  forwarding : ℕ → Option (Delivery P W)
  workers : ℕ → WorkerState E P W
  /-- What the writer has been sent, oldest first, with tickets. -/
  queue : List (RawEvent P × ℕ)
  /-- How much of the queue the writer is writing. -/
  batch : ℕ
  /-- How much of that each primary has written in this attempt. -/
  written : ℕ → ℕ
  /-- The messages of a vehicle that have been pulled, and those that a worker has taken up. -/
  pulled : VehicleId → List (Message W)
  received : VehicleId → List (Message W)

/-- A worker that has just begun. -/
def WorkerState.new : WorkerState E P W := ⟨[], none, .idle, fun _ => none, fun _ => none⟩

/-- A pod that has just begun. -/
def Pod.new : Pod E P W where
  forwarding _ := none
  workers _ := .new
  queue := []
  batch := 0
  written _ := 0
  pulled _ := []
  received _ := []

/-- Whether an entry of the writer's queue is a vehicle's. -/
def ofVehicle (vehicle : VehicleId) (entry : RawEvent P × ℕ) : Bool :=
  entry.1.vehicleId = vehicle

/-- The part of a batch that one primary is to write. -/
def Pod.pipeline (D : Deployment P W) (pod : Pod E P W) (node : ℕ) : List (RawEvent P × ℕ) :=
  (pod.queue.take pod.batch).filter fun entry => D.primary entry.1.vehicleId = node

/-- The writer reports a batch to the workers that wait for its tickets. -/
def Stage.reportBatch (batch : List (RawEvent P × ℕ)) (stage : Stage E P) : Stage E P :=
  match stage.dispatch with
  | some d => stage.report ((batch.filter (ofVehicle d.payload.vehicleId)).map Prod.snd)
  | none => stage

/-- The fleet: the broker, the pods, and the vehicles' records. -/
structure Fleet (E P W : Type) where
  /-- What the raw streams hold, oldest first. -/
  stored : List (Message W)
  /-- The last place that was taken in each stream. -/
  sequence : ℕ → ℕ
  pods : ℕ → Pod E P W
  records : VehicleId → Record E P
  /-- The acknowledgements that may yet arrive: of what is processed, or cannot be decoded. -/
  acks : List (Message W × Option Processed)
  /-- Whatever has been published. -/
  log : List (Message W)
  /-- What the broker has let go of. -/
  settled : List (Message W × Option Processed)

namespace Fleet

/-- Before the first event. -/
def new : Fleet E P W where
  stored := []
  sequence _ := 0
  pods _ := .new
  records _ := .new
  acks := []
  log := []
  settled := []

/-- A worker of a pod. -/
def worker (f : Fleet E P W) (o w : ℕ) : WorkerState E P W := (f.pods o).workers w

/-- Something happens in a pod. -/
def setPod (f : Fleet E P W) (o : ℕ) (pod : Pod E P W) : Fleet E P W :=
  { f with pods := Function.update f.pods o pod }

/-- Something happens to a worker of a pod. -/
def setWorker (f : Fleet E P W) (o w : ℕ) (worker : WorkerState E P W) : Fleet E P W :=
  f.setPod o { f.pods o with workers := Function.update (f.pods o).workers w worker }

/-- Something happens to the record of a vehicle. -/
def setRecord (f : Fleet E P W) (vehicle : VehicleId) (record : Record E P) : Fleet E P W :=
  { f with records := Function.update f.records vehicle record }

/-- A message is acknowledged. -/
def acknowledge (f : Fleet E P W) (message : Message W) (outcome : Option Processed) :
    Fleet E P W :=
  { f with acks := f.acks ++ [(message, outcome)] }

/-- The broker lets go of a message, if it still holds it. -/
def settle [DecidableEq W] (f : Fleet E P W) (message : Message W) (outcome : Option Processed) :
    Fleet E P W :=
  if message ∈ f.stored then
    { f with stored := f.stored.erase message, settled := f.settled ++ [(message, outcome)] }
  else f

end Fleet

/-! ### The work on an event -/

/-- What a worker has to do with when it is at an event of a vehicle. -/
structure Local (E P : Type) where
  stage : Stage E P
  histories : Option (List (RawEvent P))
  trips : Option (Trip E P)
  /-- The queue of the writer, which all workers of the pod share. -/
  queue : List (RawEvent P × ℕ)
  record : Record E P

namespace Local

/-- The pipeline returns. -/
def finish (s : Local E P) (d : Dispatch P) (outcome : Processed) : Local E P :=
  { s with
    stage := .finished d outcome
    record := { s.record with returned := s.record.returned ++ [(d.payload, outcome)] } }

/-- The gate of a lane. -/
def gate [Geometry P] [DecidableEq P] (c : Settings) (s : Local E P) (lane : List (RawEvent P))
    (d : Dispatch P) : Local E P :=
  if gated lane d.payload then s.finish d (.dropped "stale_or_duplicate")
  else { s with stage := .solving d (c.createContext s.trips lane d.payload) }

end Local

/-- What a worker does with the event at hand, from one point where it waits to the next. -/
inductive WorkStep [Geometry P] [DecidableEq P] (c : Settings) (s : Local E P) : Local E P → Prop
  | warm (d : Dispatch P) (lane : List (RawEvent P)) : s.stage = .started d →
      s.histories = none → c.warmed s.record.archive = some lane →
      WorkStep c s ({ s with histories := some lane }.gate c lane d)
  | gate (d : Dispatch P) (lane : List (RawEvent P)) : s.stage = .started d →
      s.histories = some lane → WorkStep c s (s.gate c lane d)
  | noMatch (d : Dispatch P) (context : MatchContext E P) : s.stage = .solving d context →
      WorkStep c s { s with stage := .archiving d }
  | solved (d : Dispatch P) (context : MatchContext E P) (diff : MatchedDiff E P)
      (trip : Trip E P) : s.stage = .solving d context →
      WorkStep c s
        { s with
          stage := .publishing d
            ⟨s.record.solves, ⟨d.payload.vehicleId, { diff with revision := d.revision }⟩, trip⟩
            false
          record := { s.record with solves := s.record.solves + 1 } }
  | publish (d : Dispatch P) (solve : Solve E P) : s.stage = .publishing d solve false →
      WorkStep c s
        { s with
          stage := .publishing d solve true
          record := { s.record with published := s.record.published ++ [solve] } }
  | commit (d : Dispatch P) (solve : Solve E P) : s.stage = .publishing d solve true →
      WorkStep c s
        { s with
          stage := .archiving d
          trips := some solve.trip
          record := { s.record with committed := s.record.committed ++ [solve] } }
  | send (d : Dispatch P) : s.stage = .archiving d →
      WorkStep c s
        { s with
          stage := .waiting d s.record.sends
          queue := s.queue ++ [(d.payload.asEvent, s.record.sends)]
          record := { s.record with sends := s.record.sends + 1 } }
  | enter (d : Dispatch P) : s.stage = .flushed d →
      WorkStep c s
        ({ s with
          histories := s.histories.map fun lane => c.entered lane d.payload.asEvent
          record := { s.record with entries := s.record.entries ++ [d.payload.asEvent] } }.finish
            d .done)
  /-- A transient failure: the event is started over. -/
  | fail (d : Dispatch P) : s.stage.admitted = some d → WorkStep c s { s with stage := .started d }

namespace Fleet

/-- What a worker sees of a vehicle. -/
def view (f : Fleet E P W) (o w : ℕ) (vehicle : VehicleId) : Local E P where
  stage := (f.worker o w).stage
  histories := (f.worker o w).histories vehicle
  trips := (f.worker o w).trips vehicle
  queue := (f.pods o).queue
  record := f.records vehicle

/-- What a worker makes of that. -/
def put (f : Fleet E P W) (o w : ℕ) (vehicle : VehicleId) (s : Local E P) : Fleet E P W :=
  let worker := { f.worker o w with
    stage := s.stage
    histories := Function.update (f.worker o w).histories vehicle s.histories
    trips := Function.update (f.worker o w).trips vehicle s.trips }
  let pod := { f.pods o with
    queue := s.queue
    workers := Function.update (f.pods o).workers w worker }
  (f.setPod o pod).setRecord vehicle s.record

end Fleet

/-! ### Steps -/

section Step

variable [Geometry P] [DecidableEq P] [DecidableEq W] (D : Deployment P W)
  (allowed : Payload P → Prop)

/-- What can happen, where producers publish allowed events to the partitions of their vehicles. -/
inductive FleetStep (f : Fleet E P W) : Fleet E P W → Prop
  /-- A producer publishes, and the broker gives the message the next place in its stream. -/
  | produce (partition : ℕ) (content : W) :
      (∀ payload, D.decode content = some payload →
        payload.vehicleId.partition = partition ∧ allowed payload) →
      FleetStep f
        { f with
          stored := f.stored ++
            [⟨partition, f.sequence (streamIndex partition D.streams) + 1, content⟩]
          log := f.log ++
            [⟨partition, f.sequence (streamIndex partition D.streams) + 1, content⟩]
          sequence := Function.update f.sequence (streamIndex partition D.streams)
            (f.sequence (streamIndex partition D.streams) + 1) }
  /-- A partition's forwarder is delivered a message, for the first time or again. -/
  | pull (message : Message W) (payload : Payload P) (pod : Pod E P W) :
      message ∈ f.stored → D.decode message.content = some payload →
      f.pods (D.owner message.partition) = pod → pod.forwarding message.partition = none →
      FleetStep f
        (f.setPod (D.owner message.partition)
          { pod with
            forwarding := Function.update pod.forwarding message.partition
              (some ⟨payload, message⟩)
            pulled := Function.update pod.pulled payload.vehicleId
              (pod.pulled payload.vehicleId ++ [message]) })
  /-- What cannot be decoded is acknowledged away. -/
  | poison (message : Message W) : message ∈ f.stored → D.decode message.content = none →
      (f.pods (D.owner message.partition)).forwarding message.partition = none →
      FleetStep f (f.acknowledge message none)
  /-- There is room in the channel of the vehicle's worker. -/
  | forward (o partition : ℕ) (delivery : Delivery P W) (pod : Pod E P W)
      (worker : WorkerState E P W) : f.pods o = pod → pod.forwarding partition = some delivery →
      pod.workers (D.pin delivery.payload.vehicleId) = worker →
      worker.channel.length < channelCapacity →
      FleetStep f
        (f.setPod o
          { pod with
            forwarding := Function.update pod.forwarding partition none
            workers := Function.update pod.workers (D.pin delivery.payload.vehicleId)
              { worker with channel := worker.channel ++ [delivery] } })
  /-- A worker takes up the next event. -/
  | receive (o w : ℕ) (delivery : Delivery P W) (rest : List (Delivery P W)) (pod : Pod E P W)
      (worker : WorkerState E P W) : f.pods o = pod → pod.workers w = worker →
      worker.stage = .idle → worker.channel = delivery :: rest →
      FleetStep f
        (f.setPod o
          { pod with
            workers := Function.update pod.workers w
              { worker with
                channel := rest
                message := some delivery.message
                stage := .started delivery.dispatch }
            received := Function.update pod.received delivery.payload.vehicleId
              (pod.received delivery.payload.vehicleId ++ [delivery.message]) })
  | work (o w : ℕ) (d : Dispatch P) (s : Local E P) :
      (f.worker o w).stage.dispatch = some d →
      WorkStep D.settings (f.view o w d.payload.vehicleId) s →
      FleetStep f (f.put o w d.payload.vehicleId s)
  /-- The event is acknowledged, and the worker goes on. -/
  | ack (o w : ℕ) (d : Dispatch P) (outcome : Processed) (message : Message W) :
      (f.worker o w).stage = .finished d outcome → (f.worker o w).message = some message →
      FleetStep f
        (((f.setWorker o w { f.worker o w with stage := .idle, message := none }).setRecord
              d.payload.vehicleId
              { f.records d.payload.vehicleId with
                acked := (f.records d.payload.vehicleId).acked ++ [(d.payload, outcome)] }
            ).acknowledge message (some outcome))
  /-- An acknowledgement arrives; it may also never do so. -/
  | settle (message : Message W) (outcome : Option Processed) : (message, outcome) ∈ f.acks →
      FleetStep f (f.settle message outcome)
  /-- The event cannot be acknowledged, and the worker goes on. -/
  | ackLost (o w : ℕ) (d : Dispatch P) (outcome : Processed) :
      (f.worker o w).stage = .finished d outcome →
      FleetStep f (f.setWorker o w { f.worker o w with stage := .idle, message := none })
  | evictLane (o w : ℕ) (vehicle : VehicleId) :
      FleetStep f
        (f.setWorker o w
          { f.worker o w with
            histories := Function.update (f.worker o w).histories vehicle none })
  | evictTrip (o w : ℕ) (vehicle : VehicleId) :
      FleetStep f
        (f.setWorker o w
          { f.worker o w with trips := Function.update (f.worker o w).trips vehicle none })
  /-- The writer takes up a batch. -/
  | collect (o n : ℕ) : (f.pods o).batch = 0 → 0 < n → n ≤ max 1 D.batchSize →
      n ≤ (f.pods o).queue.length →
      FleetStep f (f.setPod o { f.pods o with batch := n, written := fun _ => 0 })
  /-- A primary carries out the next command of its pipeline, and may let go of old events. -/
  | append (o node : ℕ) (entry : RawEvent P × ℕ) (record : Record E P) (kept : ℕ) :
      ((f.pods o).pipeline D node)[(f.pods o).written node]? = some entry →
      f.records entry.1.vehicleId = record →
      min D.settings.history (record.archive.length + 1) ≤ kept →
      kept ≤ record.archive.length + 1 →
      FleetStep f
        ((f.setPod o
            { f.pods o with
              written := Function.update (f.pods o).written node
                ((f.pods o).written node + 1) }).setRecord entry.1.vehicleId
          { record with
            archive := (record.archive ++ [entry.1.store]).drop (record.archive.length + 1 - kept)
            archived := record.archived ++ [entry.1.store] })
  /-- The attempt fails, and is repeated. -/
  | retry (o : ℕ) : FleetStep f (f.setPod o { f.pods o with written := fun _ => 0 })
  /-- All primaries have succeeded, and the batch is reported. -/
  | flush (o : ℕ) :
      (∀ node, (f.pods o).written node = ((f.pods o).pipeline D node).length) →
      FleetStep f
        (f.setPod o
          { f.pods o with
            workers := fun w =>
              { (f.pods o).workers w with
                stage := ((f.pods o).workers w).stage.reportBatch
                  ((f.pods o).queue.take (f.pods o).batch) }
            queue := (f.pods o).queue.drop (f.pods o).batch
            batch := 0
            written := fun _ => 0 })
  /-- A pod restarts: its caches, its channels and its queue are gone. -/
  | restart (o : ℕ) : FleetStep f (f.setPod o .new)

/-- What a run can lead to from a fleet. -/
abbrev FleetRuns : Fleet E P W → Fleet E P W → Prop :=
  Relation.ReflTransGen (FleetStep D allowed)

end Step

end Routers
