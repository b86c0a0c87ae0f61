import Routers.Realtime.DateTime
import Routers.Realtime.Event

/-!
# Raw events

An observation comes over the ingest stream with a time to the nanosecond.  It is archived
under its vehicle with the time in microseconds, and read back from there.

## Main definitions

* `Payload`, `Payload.decode` — an observation, and how it comes off the wire.
* `RawEvent`, `RawEvent.store`, `StoredEvent.load` — an archived one, and its stored form.

## Main results

* `RawEvent.load_store` — an event at a whole number of microseconds is read back as it was.

## References

`src/libs/routers_realtime/src/event.rs`.
-/

namespace Routers

/-- A point in time on the wire. -/
structure WireTimestamp where
  seconds : Int64
  nanos : Int32

/-- An observation on the wire, where a field may be missing. -/
structure WirePayload (P : Type) where
  vehicleId : UInt64
  timestamp : Option WireTimestamp
  point : Option P

/-- An observation of a vehicle. -/
structure Payload (P : Type) where
  vehicleId : VehicleId
  timestamp : DateTime
  point : P
  deriving DecidableEq

/-- An event of the raw history. -/
structure RawEvent (P : Type) where
  vehicleId : VehicleId
  point : P
  timestamp : DateTime
  deriving DecidableEq

/-- An event as it is serialised, with its time in microseconds. -/
structure StoredEvent (P : Type) where
  vehicleId : VehicleId
  point : P
  timestamp : ℤ
  deriving DecidableEq

variable {P : Type}

/-- Decode an observation: what is missing takes its default, and a time there is not is the
epoch. -/
def Payload.decode [Inhabited P] (payload : WirePayload P) : Payload P :=
  let point := payload.point.getD default
  let timestamp := payload.timestamp.getD ⟨0, 0⟩
  { vehicleId := ⟨payload.vehicleId⟩
    timestamp := (DateTime.fromTimestamp timestamp.seconds.toInt
      timestamp.nanos.toUInt32.toNat).getD DateTime.epoch
    point := point }

/-- The event of an observation. -/
def Payload.asEvent (payload : Payload P) : RawEvent P :=
  { vehicleId := payload.vehicleId, point := payload.point, timestamp := payload.timestamp }

/-- Serialise an event. -/
def RawEvent.store (event : RawEvent P) : StoredEvent P :=
  { vehicleId := event.vehicleId
    point := event.point
    timestamp := event.timestamp.timestampMicros }

/-- Deserialise an event, if its time exists. -/
def StoredEvent.load (stored : StoredEvent P) : Option (RawEvent P) :=
  (DateTime.fromMicros stored.timestamp).map fun timestamp =>
    { vehicleId := stored.vehicleId, point := stored.point, timestamp := timestamp }

theorem StoredEvent.load_eq_some {stored : StoredEvent P} {event : RawEvent P}
    (h : stored.load = some event) :
    DateTime.fromMicros stored.timestamp = some event.timestamp := by
  obtain ⟨timestamp, htime, rfl⟩ := Option.map_eq_some_iff.mp h
  exact htime

/-- **An event at a whole number of microseconds is read back as it was.** -/
theorem RawEvent.load_store {event : RawEvent P} (h : event.timestamp.WholeMicros) :
    event.store.load = some event := by
  rw [StoredEvent.load, RawEvent.store, h.fromMicros_eq, Option.map_some]

end Routers
