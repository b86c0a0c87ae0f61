import Routers.Realtime.Matching
import Routers.Realtime.Payload
import Routers.Transition.Continuation
import Mathlib.Data.List.Sort
import Mathlib.Logic.Relation

/-!
# The worker of a vehicle

A worker takes the events of a vehicle one at a time.  It warms the vehicle's lane from the
archive, drops what is no later than the lane, has the rest solved, publishes the emission and
commits the trip, has the event archived, and lets it into the lane.  It can fail at any point
where it waits, and then starts the event over; its caches can be evicted and its process can
restart at any time.  Beside it the writer of the archive appends what it is sent, in batches that
it repeats until one goes through.

The model is of one vehicle, and a step is what the code does from one such point to the next.

## Main definitions

* `Settings.createContext` — what a matcher is asked to solve.
* `Settings.warmed`, `gated`, `Settings.entered` — the lane.
* `Stage`, `Pipeline` — how far an event is, and all there is of a vehicle.
* `Step`, `Runs` — what can happen, and whole runs.

## References

`src/libs/routers_realtime/bin/orchestrator.rs`.
-/

namespace Routers

variable {E P : Type}

/-- What the orchestrator is set to. -/
structure Settings where
  /-- Consecutive points further apart in time, in nanoseconds, end the history. -/
  gap : ℤ
  /-- And so do ones further apart, in metres. -/
  jumpDistance : ℚ
  /-- The history entries a context draws from. -/
  contextWindow : ℕ
  /-- The events the archive keeps of a vehicle. -/
  history : ℕ

/-- A request to a matcher. -/
structure MatchContext (E P : Type) where
  continuation : Continuation E P
  vehicleId : VehicleId

/-- How an event left the pipeline. -/
inductive Processed
  | done
  | dropped (reason : String)
  deriving DecidableEq, Repr

/-! ### The archive -/

/-- The newest events of a vehicle, newest first. -/
def getMany (archive : List (StoredEvent P)) (len : ℕ) : Option (List (RawEvent P)) :=
  (archive.reverse.take len).mapM StoredEvent.load

/-! ### The lane -/

/-- Events by time; the order of those of one time stays. -/
def sortByTimestamp (events : List (RawEvent P)) : List (RawEvent P) :=
  events.insertionSort fun a b => a.timestamp ≤ b.timestamp

/-- An event no later than its lane is stale, or a redelivery. -/
def gated (lane : List (RawEvent P)) (payload : Payload P) : Bool :=
  match lane.getLast? with
  | some last => payload.timestamp ≤ last.timestamp
  | none => false

namespace Settings

/-- The lane read back from the archive. -/
def warmed (c : Settings) (archive : List (StoredEvent P)) : Option (List (RawEvent P)) :=
  (getMany archive (c.contextWindow * 3)).map sortByTimestamp

/-- The lane with an event behind it, without what is over its bound. -/
def entered (c : Settings) (lane : List (RawEvent P)) (event : RawEvent P) : List (RawEvent P) :=
  let lane := lane ++ [event]
  let bound := c.contextWindow * 3
  if bound < lane.length then lane.drop (lane.length - bound) else lane

/-! ### The context -/

section Context

variable [Geometry P]

/-- The entries, newest first, up to the first that is too far from the one before it. -/
def unbroken (c : Settings) (point : P) (timestamp : DateTime) :
    List (RawEvent P) → List (RawEvent P)
  | [] => []
  | event :: entries =>
    if |timestamp.durationSince event.timestamp| ≤ c.gap ∧
        Geometry.distance point event.point ≤ c.jumpDistance then
      event :: unbroken c event.point event.timestamp entries
    else []

/-- The history up to a live event, oldest first. -/
def contextHistory (c : Settings) (entries : List (RawEvent P)) (payload : Payload P) :
    List (RawEvent P) :=
  let entries := entries.filter fun event => event.timestamp ≤ payload.timestamp
  let entries := entries.insertionSort fun a b => b.timestamp ≤ a.timestamp
  let entries := entries.take c.contextWindow
  let history := sortByTimestamp
    (payload.asEvent :: c.unbroken payload.point payload.timestamp entries)
  history.destutter fun a b => a.timestamp ≠ b.timestamp

/-- What a matcher is asked to solve: the trip committed last, against that history. -/
def createContext [DecidableEq P] (c : Settings) (previous : Option (Trip E P))
    (entries : List (RawEvent P)) (payload : Payload P) : MatchContext E P :=
  let origins := (c.contextHistory entries payload).map fun event =>
    (⟨event.point, event.timestamp.timestampMicros⟩ : Origin P)
  { continuation := Continuation.reconcile previous origins, vehicleId := payload.vehicleId }

end Context

end Settings

/-! ### The pipeline -/

/-- An event handed to a worker, with its place in the ingest stream. -/
structure Dispatch (P : Type) where
  payload : Payload P
  revision : ℕ

/-- What came of a solve: an emission, and the trip to resume.  Solves are numbered. -/
structure Solve (E P : Type) where
  number : ℕ
  event : MatchedEvent E P
  trip : Trip E P

/-- How far the worker is with an event. -/
inductive Stage (E P : Type)
  | idle
  /-- The pipeline is run from its start. -/
  | started (d : Dispatch P)
  /-- The event is behind the gate, and a matcher has been asked. -/
  | solving (d : Dispatch P) (context : MatchContext E P)
  /-- The emission is under way; the broker may have stored it. -/
  | publishing (d : Dispatch P) (solve : Solve E P) (stored : Bool)
  | archiving (d : Dispatch P)
  /-- The event is with the writer, which will report the ticket when it is archived. -/
  | waiting (d : Dispatch P) (ticket : ℕ)
  | flushed (d : Dispatch P)
  | finished (d : Dispatch P) (outcome : Processed)

namespace Stage

/-- The event that the worker is at. -/
def dispatch : Stage E P → Option (Dispatch P)
  | idle => none
  | started d | solving d _ | publishing d _ _ | archiving d | waiting d _ | flushed d
  | finished d _ => some d

/-- The event that is behind the gate, and not finished. -/
def admitted : Stage E P → Option (Dispatch P)
  | idle | started _ | finished _ _ => none
  | solving d _ | publishing d _ _ | archiving d | waiting d _ | flushed d => some d

/-- The writer reports tickets. -/
def report (tickets : List ℕ) : Stage E P → Stage E P
  | waiting d ticket => if ticket ∈ tickets then flushed d else waiting d ticket
  | stage => stage

end Stage

/-- All there is of a vehicle: the worker with its caches, the writer with its queue, the archive,
and what has happened. -/
structure Pipeline (E P : Type) where
  stage : Stage E P
  histories : Option (List (RawEvent P))
  trips : Option (Trip E P)
  /-- What the writer has been sent, oldest first, with tickets. -/
  queue : List (RawEvent P × ℕ)
  /-- How much of the queue the writer is writing. -/
  batch : ℕ
  /-- How much of that is written in this attempt. -/
  written : ℕ
  /-- The archive as it is kept, oldest first. -/
  archive : List (StoredEvent P)
  /-- Whatever has been archived. -/
  archived : List (StoredEvent P)
  published : List (Solve E P)
  committed : List (Solve E P)
  /-- What has entered a lane. -/
  entries : List (RawEvent P)
  /-- What the pipeline has returned. -/
  returned : List (Payload P × Processed)
  acked : List (Payload P × Processed)
  solves : ℕ
  sends : ℕ

namespace Pipeline

/-- Before the first event. -/
def new : Pipeline E P where
  stage := .idle
  histories := none
  trips := none
  queue := []
  batch := 0
  written := 0
  archive := []
  archived := []
  published := []
  committed := []
  entries := []
  returned := []
  acked := []
  solves := 0
  sends := 0

/-- The pipeline returns. -/
def finish (s : Pipeline E P) (d : Dispatch P) (outcome : Processed) : Pipeline E P :=
  { s with stage := .finished d outcome, returned := s.returned ++ [(d.payload, outcome)] }

/-- The gate of a lane. -/
def gate [Geometry P] [DecidableEq P] (c : Settings) (s : Pipeline E P)
    (lane : List (RawEvent P)) (d : Dispatch P) : Pipeline E P :=
  if gated lane d.payload then s.finish d (.dropped "stale_or_duplicate")
  else { s with stage := .solving d (c.createContext s.trips lane d.payload) }

end Pipeline

section Step

variable [Geometry P] [DecidableEq P] (c : Settings) (allowed : Payload P → Prop)

/-- What can happen, where the deliveries are of allowed events. -/
inductive Step (s : Pipeline E P) : Pipeline E P → Prop
  /-- The broker delivers an event, for the first time or again. -/
  | deliver (d : Dispatch P) : s.stage = .idle → allowed d.payload →
      Step s { s with stage := .started d }
  /-- There is no lane: it is read from the archive. -/
  | warm (d : Dispatch P) (lane : List (RawEvent P)) : s.stage = .started d →
      s.histories = none → c.warmed s.archive = some lane →
      Step s ({ s with histories := some lane }.gate c lane d)
  | gate (d : Dispatch P) (lane : List (RawEvent P)) : s.stage = .started d →
      s.histories = some lane → Step s (s.gate c lane d)
  | noMatch (d : Dispatch P) (context : MatchContext E P) : s.stage = .solving d context →
      Step s { s with stage := .archiving d }
  /-- The emission takes the event's place in the stream for its revision. -/
  | solved (d : Dispatch P) (context : MatchContext E P) (diff : MatchedDiff E P)
      (trip : Trip E P) : s.stage = .solving d context →
      Step s
        { s with
          stage := .publishing d
            ⟨s.solves, ⟨d.payload.vehicleId, { diff with revision := d.revision }⟩, trip⟩ false
          solves := s.solves + 1 }
  /-- The broker stores the emission. -/
  | publish (d : Dispatch P) (solve : Solve E P) : s.stage = .publishing d solve false →
      Step s
        { s with stage := .publishing d solve true, published := s.published ++ [solve] }
  /-- The broker's acknowledgement arrives, and the trip is committed. -/
  | commit (d : Dispatch P) (solve : Solve E P) : s.stage = .publishing d solve true →
      Step s
        { s with
          stage := .archiving d
          trips := some solve.trip
          committed := s.committed ++ [solve] }
  | send (d : Dispatch P) : s.stage = .archiving d →
      Step s
        { s with
          stage := .waiting d s.sends
          queue := s.queue ++ [(d.payload.asEvent, s.sends)]
          sends := s.sends + 1 }
  /-- The writer takes up a batch. -/
  | collect (n : ℕ) : s.batch = 0 → n ≤ s.queue.length →
      Step s { s with batch := n, written := 0 }
  /-- One event of the batch reaches the archive, which may let go of old ones. -/
  | append (entry : RawEvent P × ℕ) (kept : ℕ) : (s.queue.take s.batch)[s.written]? = some entry →
      min c.history (s.archive.length + 1) ≤ kept → kept ≤ s.archive.length + 1 →
      Step s
        { s with
          written := s.written + 1
          archive := (s.archive ++ [entry.1.store]).drop (s.archive.length + 1 - kept)
          archived := s.archived ++ [entry.1.store] }
  /-- The attempt fails, and is repeated. -/
  | retry : Step s { s with written := 0 }
  /-- The attempt succeeds. -/
  | flush : s.written = s.batch →
      Step s
        { s with
          stage := s.stage.report ((s.queue.take s.batch).map Prod.snd)
          queue := s.queue.drop s.batch
          batch := 0
          written := 0 }
  /-- The event enters the lane, unless there is none. -/
  | enter (d : Dispatch P) : s.stage = .flushed d →
      Step s
        ({ s with
          histories := s.histories.map fun lane => c.entered lane d.payload.asEvent
          entries := s.entries ++ [d.payload.asEvent] }.finish d .done)
  | ack (d : Dispatch P) (outcome : Processed) : s.stage = .finished d outcome →
      Step s { s with stage := .idle, acked := s.acked ++ [(d.payload, outcome)] }
  /-- The acknowledgement is lost. -/
  | ackLost (d : Dispatch P) (outcome : Processed) : s.stage = .finished d outcome →
      Step s { s with stage := .idle }
  /-- The worker fails where it waits, and starts the event over. -/
  | fail (d : Dispatch P) : s.stage.admitted = some d → Step s { s with stage := .started d }
  | evictLane : Step s { s with histories := none }
  | evictTrip : Step s { s with trips := none }
  /-- The process restarts: its caches and its queue are gone. -/
  | restart :
      Step s
        { s with
          stage := .idle
          histories := none
          trips := none
          queue := []
          batch := 0
          written := 0 }

/-- What a run can lead to from a pipeline. -/
abbrev Runs : Pipeline E P → Pipeline E P → Prop := Relation.ReflTransGen (Step c allowed)

end Step

end Routers
