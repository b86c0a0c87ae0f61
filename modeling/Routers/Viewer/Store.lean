import Routers.Realtime.Event
import Routers.Geo
import Mathlib.Data.Finset.Card
import Mathlib.Data.Finset.Image
import Mathlib.Data.List.Induction
import Mathlib.Data.Set.Finite.Lattice
import Mathlib.Data.Set.Finite.List

/-!
# The traces of a viewer

A viewer merges the emissions of each vehicle by the timestamp of their layers.  A layer that
arrives replaces the one before it, whichever solve came first, so that the order of delivery
shows exactly where two emissions disagree.

## Main definitions

* `VehicleTrace`, `TraceStore` — the merged history of a vehicle, and of all of them.
* `VehicleTrace.merge`, `TraceStore.ingest` — what an emission does to them.
* `TraceStore.segment` — the geometry recorded for an observation.
* `ByRevision` — the contract: the highest revision that contains an observation decides.
* `Agree` — emissions of one vehicle that say the same of the observations they share.

## Main results

* `TraceStore.segment_ingest` — **a layer replaces the one at its timestamp.**
* `TraceStore.segment_ingestAll` — the last emission that contains an observation decides.
* `convergesByRevision_iff` — **delivery does not matter exactly if the emissions agree.**

## References

`src/libs/routers_viewer/src/bin/realtime/store.rs`.
-/

namespace Routers

open Std (ExtTreeMap ExtHashMap)

variable {E P : Type}

/-- A vehicle's matched history: the geometry driven into each observation, by timestamp. -/
structure VehicleTrace (P : Type) where
  layers : ExtTreeMap ℤ (List P)
  lastSeen : ℕ

namespace VehicleTrace

/-- The trace of a vehicle that is seen for the first time. -/
def new (now : ℕ) : VehicleTrace P := ⟨∅, now⟩

/-- Drop the oldest observation. -/
def popFirst (layers : ExtTreeMap ℤ (List P)) : ExtTreeMap ℤ (List P) :=
  match layers.minKey? with
  | none => layers
  | some oldest => layers.erase oldest

theorem size_popFirst_lt (layers : ExtTreeMap ℤ (List P)) {capacity : ℕ}
    (h : capacity < layers.size) : (popFirst layers).size < layers.size := by
  cases hmin : layers.minKey? with
  | none =>
    rw [ExtTreeMap.minKey?_eq_none_iff] at hmin
    rw [hmin, ExtTreeMap.size_empty] at h
    exact absurd h (Nat.not_lt_zero _)
  | some oldest =>
    have hmem := ExtTreeMap.contains_minKey? hmin
    simp only [popFirst, hmin, ExtTreeMap.size_erase, hmem, if_true]
    omega

/-- Drop the oldest observations until the capacity holds the others. -/
def trim (capacity : ℕ) (layers : ExtTreeMap ℤ (List P)) : ExtTreeMap ℤ (List P) :=
  if capacity < layers.size then trim capacity (popFirst layers) else layers
termination_by layers.size
decreasing_by exact size_popFirst_lt layers ‹_›

/-- Insert layers, each at its timestamp. -/
def insertAll (layers : ExtTreeMap ℤ (List P)) (l : List (MatchedLayer E P)) :
    ExtTreeMap ℤ (List P) :=
  l.foldl (fun layers layer => layers.insert layer.timestamp layer.segment) layers

/-- Merge an emission, and bound the trace by observation count. -/
def merge (trace : VehicleTrace P) (diff : MatchedDiff E P) (capacity now : ℕ) : VehicleTrace P :=
  { layers := trim capacity (insertAll trace.layers diff.layers), lastSeen := now }

/-- The full tail as one point sequence, oldest observation first. -/
def flattened (trace : VehicleTrace P) : List P := trace.layers.toList.flatMap Prod.snd

end VehicleTrace

/-- The merged histories of all vehicles. -/
structure TraceStore (P : Type) where
  capacity : ℕ
  traces : ExtHashMap VehicleId (VehicleTrace P)
  eventBucket : List ℕ
  totalEvents : ℕ

namespace TraceStore

/-- The store before any emission. -/
def new (capacity : ℕ) : TraceStore P := ⟨capacity, ∅, [], 0⟩

/-- Merge an emission into its vehicle's trace; one without layers is only counted. -/
def ingest (s : TraceStore P) (now : ℕ) (result : MatchedEvent E P) : TraceStore P :=
  let s := { s with eventBucket := s.eventBucket ++ [now], totalEvents := s.totalEvents + 1 }
  if result.diff.layers.isEmpty then s
  else
    let trace := s.traces.getD result.vehicleId (VehicleTrace.new now)
    { s with traces := s.traces.insert result.vehicleId (trace.merge result.diff s.capacity now) }

/-- Ingest deliveries, each at its time. -/
def ingestAll (s : TraceStore P) (deliveries : List (ℕ × MatchedEvent E P)) : TraceStore P :=
  deliveries.foldl (fun s delivery => s.ingest delivery.1 delivery.2) s

/-- The trace of a vehicle, as observations with geometry. -/
def layers (s : TraceStore P) (vehicle : VehicleId) : Option (ExtTreeMap ℤ (List P)) :=
  s.traces[vehicle]?.map VehicleTrace.layers

/-- The geometry recorded for an observation of a vehicle. -/
def segment (s : TraceStore P) (vehicle : VehicleId) (timestamp : ℤ) : Option (List P) :=
  (s.layers vehicle).bind fun layers => layers[timestamp]?

end TraceStore

/-! ### One emission -/

namespace VehicleTrace

theorem getElem?_insertAll (layers : ExtTreeMap ℤ (List P)) (l : List (MatchedLayer E P)) (t : ℤ) :
    (insertAll layers l)[t]?
      = ((l.reverse.find? fun layer => layer.timestamp = t).map MatchedLayer.segment).or
        layers[t]? := by
  induction l using List.reverseRecOn with
  | nil => rfl
  | append_singleton l layer ih =>
    rw [insertAll, List.foldl_append, List.foldl_cons, List.foldl_nil, ExtTreeMap.getElem?_insert,
      List.reverse_append, List.reverse_singleton, List.singleton_append, List.find?_cons]
    by_cases h : layer.timestamp = t
    · simp [h]
    · have hcmp : compare layer.timestamp t ≠ .eq := fun hc => h (Std.LawfulEqCmp.eq_of_compare hc)
      rw [if_neg hcmp]
      simpa [h, insertAll] using ih

theorem trim_of_le {capacity : ℕ} {layers : ExtTreeMap ℤ (List P)} (h : layers.size ≤ capacity) :
    trim capacity layers = layers := by
  rw [trim, if_neg h.not_gt]

/-- A map has no more observations than a set that holds all of them. -/
theorem size_le_card {layers : ExtTreeMap ℤ (List P)} {T : Finset ℤ}
    (h : ∀ t, layers[t]?.isSome → t ∈ T) : layers.size ≤ T.card := by
  have hnodup : layers.keys.Nodup := ExtTreeMap.nodup_keys
  rw [← ExtTreeMap.length_keys, ← List.toFinset_card_of_nodup hnodup]
  refine Finset.card_le_card fun t ht => h t ?_
  rw [List.mem_toFinset, ExtTreeMap.mem_keys] at ht
  exact ExtTreeMap.mem_iff_isSome_getElem?.mp ht

end VehicleTrace

/-! ### Events that fit -/

/-- The observations of a vehicle that some events contain. -/
def timestamps (S : List (MatchedEvent E P)) (vehicle : VehicleId) : Finset ℤ :=
  ((S.filter fun e => e.vehicleId = vehicle).flatMap fun e =>
    e.diff.layers.map MatchedLayer.timestamp).toFinset

/-- The capacity holds the observations of each vehicle. -/
def Fits (capacity : ℕ) (S : List (MatchedEvent E P)) : Prop :=
  ∀ vehicle, (timestamps S vehicle).card ≤ capacity

/-- A diff says something exactly of the timestamps of its layers. -/
theorem MatchedDiff.isSome_segment_iff (diff : MatchedDiff E P) (t : ℤ) :
    (diff.segment t).isSome ↔ ∃ layer ∈ diff.layers, layer.timestamp = t := by
  simp [MatchedDiff.segment, Option.isSome_map, List.find?_isSome]

theorem mem_timestamps {S : List (MatchedEvent E P)} {e : MatchedEvent E P} (he : e ∈ S) {t : ℤ}
    (ht : (e.diff.segment t).isSome) : t ∈ timestamps S e.vehicleId := by
  obtain ⟨layer, hlayer, rfl⟩ := (MatchedDiff.isSome_segment_iff _ _).mp ht
  rw [timestamps, List.mem_toFinset, List.mem_flatMap]
  exact ⟨e, List.mem_filter.mpr ⟨he, by simp⟩, List.mem_map_of_mem hlayer⟩

/-- A store that has merged nothing but some events. -/
structure TraceStore.Holds (s : TraceStore P) (S : List (MatchedEvent E P)) : Prop where
  fits : Fits s.capacity S
  held : ∀ vehicle layers, s.layers vehicle = some layers →
    ∀ t, layers[t]?.isSome → t ∈ timestamps S vehicle

namespace TraceStore

variable {S : List (MatchedEvent E P)}

/-- What an event leaves of a trace that it may be merged into. -/
theorem layers_ingest {s : TraceStore P} (h : s.Holds S) (now : ℕ) {e : MatchedEvent E P}
    (he : e ∈ S) (vehicle : VehicleId) :
    (s.ingest now e).layers vehicle
      = if e.vehicleId = vehicle ∧ e.diff.layers ≠ [] then
          some (VehicleTrace.insertAll ((s.layers vehicle).getD ∅) e.diff.layers)
        else s.layers vehicle := by
  by_cases hempty : e.diff.layers = []
  · rw [if_neg fun hc => hc.2 hempty, ingest, hempty]
    rfl
  have hne : e.diff.layers.isEmpty = false := by simpa using hempty
  simp only [ingest, hne, Bool.false_eq_true, if_false, layers, ExtHashMap.getElem?_insert]
  by_cases hv : e.vehicleId = vehicle
  · subst hv
    rw [if_pos (beq_self_eq_true _), if_pos ⟨rfl, hempty⟩, Option.map_some]
    congr 1
    have hlayers : (s.traces.getD e.vehicleId (VehicleTrace.new now)).layers
        = (s.layers e.vehicleId).getD ∅ := by
      rw [ExtHashMap.getD_eq_getD_getElem?, layers]
      cases s.traces[e.vehicleId]? <;> rfl
    rw [VehicleTrace.merge, hlayers]
    -- Nothing but observations of the events is held, so nothing is trimmed.
    refine VehicleTrace.trim_of_le ((VehicleTrace.size_le_card fun t ht => ?_).trans
      (h.fits e.vehicleId))
    rw [VehicleTrace.getElem?_insertAll, Option.isSome_or, Bool.or_eq_true] at ht
    obtain ht | ht := ht
    · exact mem_timestamps he ht
    · cases hold : s.layers e.vehicleId with
      | none => simp [hold] at ht
      | some old =>
        rw [hold, Option.getD_some] at ht
        exact h.held _ _ hold t ht
  · rw [if_neg (by simpa using hv), if_neg fun hc => hv hc.1]

/-- **A layer replaces the one at its timestamp**; nothing else changes. -/
theorem segment_ingest {s : TraceStore P} (h : s.Holds S) (now : ℕ) {e : MatchedEvent E P}
    (he : e ∈ S) (vehicle : VehicleId) (t : ℤ) :
    (s.ingest now e).segment vehicle t
      = (if e.vehicleId = vehicle then e.diff.segment t else none).or (s.segment vehicle t) := by
  rw [segment, layers_ingest h now he]
  by_cases hv : e.vehicleId = vehicle
  · by_cases hempty : e.diff.layers = []
    · rw [if_neg fun hc => hc.2 hempty, if_pos hv, MatchedDiff.segment, hempty]
      rfl
    · rw [if_pos ⟨hv, hempty⟩, if_pos hv, Option.bind_some, VehicleTrace.getElem?_insertAll]
      rw [segment, MatchedDiff.segment]
      cases s.layers vehicle <;> simp
  · rw [if_neg fun hc => hv hc.1, if_neg hv]
    rfl

theorem Holds.ingest {s : TraceStore P} (h : s.Holds S) (now : ℕ) {e : MatchedEvent E P}
    (he : e ∈ S) : (s.ingest now e).Holds S := by
  constructor
  · have hcapacity : (s.ingest now e).capacity = s.capacity := by
      unfold TraceStore.ingest
      dsimp only
      split <;> rfl
    rw [hcapacity]
    exact h.fits
  · intro vehicle layers hlayers t ht
    have hseg : ((s.ingest now e).segment vehicle t).isSome := by
      rw [segment, hlayers, Option.bind_some]
      exact ht
    rw [segment_ingest h now he, Option.isSome_or, Bool.or_eq_true] at hseg
    obtain hseg | hseg := hseg
    · split at hseg
      · rename_i hv
        exact hv ▸ mem_timestamps he hseg
      · simp at hseg
    · obtain ⟨seg, hseg⟩ := Option.isSome_iff_exists.mp hseg
      obtain ⟨old, hold, hseg⟩ := Option.bind_eq_some_iff.mp hseg
      exact h.held vehicle old hold t (by rw [hseg]; rfl)

theorem holds_new {capacity : ℕ} (h : Fits capacity S) : (new capacity : TraceStore P).Holds S := by
  refine ⟨h, fun vehicle layers hlayers => ?_⟩
  simp [TraceStore.layers, new] at hlayers

/-! ### Deliveries -/

theorem ingestAll_append_singleton (s : TraceStore P) (l : List (ℕ × MatchedEvent E P))
    (delivery : ℕ × MatchedEvent E P) :
    s.ingestAll (l ++ [delivery]) = (s.ingestAll l).ingest delivery.1 delivery.2 := by
  rw [ingestAll, List.foldl_append]
  rfl

theorem Holds.ingestAll {s : TraceStore P} (h : s.Holds S) {l : List (ℕ × MatchedEvent E P)}
    (hl : ∀ delivery ∈ l, delivery.2 ∈ S) : (s.ingestAll l).Holds S := by
  induction l using List.reverseRecOn with
  | nil => exact h
  | append_singleton l delivery ih =>
    rw [ingestAll_append_singleton]
    exact (ih fun d hd => hl d (List.mem_append_left _ hd)).ingest _ (hl delivery (by simp))

/-- **The last emission that contains an observation decides its segment.** -/
theorem segment_ingestAll {capacity : ℕ} (h : Fits capacity S) {l : List (ℕ × MatchedEvent E P)}
    (hl : ∀ delivery ∈ l, delivery.2 ∈ S) (vehicle : VehicleId) (t : ℤ) :
    ((new capacity).ingestAll l).segment vehicle t
      = l.reverse.findSome? fun delivery =>
          if delivery.2.vehicleId = vehicle then delivery.2.diff.segment t else none := by
  induction l using List.reverseRecOn with
  | nil => simp [segment, layers, ingestAll, new]
  | append_singleton l delivery ih =>
    have hmem : ∀ d ∈ l, d.2 ∈ S := fun d hd => hl d (List.mem_append_left _ hd)
    rw [ingestAll_append_singleton,
      segment_ingest ((holds_new h).ingestAll hmem) _ (hl delivery (by simp)), ih hmem,
      List.reverse_append, List.reverse_singleton, List.singleton_append, List.findSome?_cons]
    cases (if delivery.2.vehicleId = vehicle then delivery.2.diff.segment t else none) <;> rfl

/-- A vehicle has a trace from its first emission with layers on. -/
theorem isSome_layers_ingestAll {capacity : ℕ} (h : Fits capacity S)
    {l : List (ℕ × MatchedEvent E P)} (hl : ∀ delivery ∈ l, delivery.2 ∈ S)
    (vehicle : VehicleId) :
    (((new capacity).ingestAll l).layers vehicle).isSome
      ↔ ∃ delivery ∈ l, delivery.2.vehicleId = vehicle ∧ delivery.2.diff.layers ≠ [] := by
  induction l using List.reverseRecOn with
  | nil => simp [layers, ingestAll, new]
  | append_singleton l delivery ih =>
    have hmem : ∀ d ∈ l, d.2 ∈ S := fun d hd => hl d (List.mem_append_left _ hd)
    rw [ingestAll_append_singleton,
      layers_ingest ((holds_new h).ingestAll hmem) _ (hl delivery (by simp))]
    split
    · rename_i hd
      exact ⟨fun _ => ⟨delivery, by simp, hd⟩, fun _ => rfl⟩
    · rename_i hd
      rw [ih hmem]
      constructor
      · rintro ⟨d, hdl, hdv⟩
        exact ⟨d, List.mem_append_left _ hdl, hdv⟩
      · rintro ⟨d, hdl, hdv⟩
        obtain hdl | hdl := List.mem_append.mp hdl
        · exact ⟨d, hdl, hdv⟩
        · rw [List.mem_singleton.mp hdl] at hdv
          exact absurd hdv hd

end TraceStore

/-! ### Order and duplication -/

/-- Deliveries of some events, each at least once and none but them. -/
def Delivers (S : List (MatchedEvent E P)) (l : List (ℕ × MatchedEvent E P)) : Prop :=
  ∀ e, e ∈ S ↔ ∃ now, (now, e) ∈ l

/-- The contract of emissions: the segment of an observation is that of an emission which contains
it and has the highest revision among those that do. -/
def ByRevision (S : List (MatchedEvent E P)) (s : TraceStore P) : Prop :=
  ∀ vehicle t,
    (∀ segment, s.segment vehicle t = some segment → ∃ e ∈ S, e.vehicleId = vehicle ∧
      e.diff.segment t = some segment ∧ ∀ e' ∈ S, e'.vehicleId = vehicle →
        (e'.diff.segment t).isSome → e'.diff.revision ≤ e.diff.revision) ∧
    (s.segment vehicle t = none → ∀ e ∈ S, e.vehicleId = vehicle → e.diff.segment t = none)

/-- However events are delivered, the same traces come out, and they are by revision. -/
def ConvergesByRevision (capacity : ℕ) (S : List (MatchedEvent E P)) : Prop :=
  ∀ l, Delivers S l → ByRevision S ((TraceStore.new capacity).ingestAll l) ∧
    ∀ l', Delivers S l' → ∀ vehicle, ((TraceStore.new capacity).ingestAll l).layers vehicle
      = ((TraceStore.new capacity).ingestAll l').layers vehicle

/-- Emissions of one vehicle say the same of the observations they share. -/
def Agree (S : List (MatchedEvent E P)) : Prop :=
  ∀ e ∈ S, ∀ e' ∈ S, e.vehicleId = e'.vehicleId → ∀ t segment segment',
    e.diff.segment t = some segment → e'.diff.segment t = some segment' → segment = segment'

/-- Some emission of the highest revision contains an observation that any does. -/
theorem exists_highest {S : List (MatchedEvent E P)} {e : MatchedEvent E P} (he : e ∈ S) {t : ℤ}
    (ht : (e.diff.segment t).isSome) :
    ∃ d ∈ S, d.vehicleId = e.vehicleId ∧ (d.diff.segment t).isSome ∧
      ∀ e' ∈ S, e'.vehicleId = e.vehicleId → (e'.diff.segment t).isSome →
        e'.diff.revision ≤ d.diff.revision := by
  let containing := {d | d ∈ S ∧ d.vehicleId = e.vehicleId ∧ (d.diff.segment t).isSome}
  have hfinite : containing.Finite := S.finite_toSet.subset fun d hd => hd.1
  obtain ⟨d, ⟨hd, hv, hsome⟩, hmax⟩ :=
    containing.exists_max_image (fun d => d.diff.revision) hfinite ⟨e, he, rfl, ht⟩
  exact ⟨d, hd, hv, hsome, fun e' he' hv' ht' => hmax e' ⟨he', hv', ht'⟩⟩

namespace Delivers

variable {S : List (MatchedEvent E P)} {l : List (ℕ × MatchedEvent E P)} {capacity : ℕ}

theorem mem (h : Delivers S l) : ∀ delivery ∈ l, delivery.2 ∈ S :=
  fun delivery hd => (h delivery.2).mpr ⟨delivery.1, hd⟩

/-- Some delivery of all events ends with a given one. -/
theorem ending {e : MatchedEvent E P} (he : e ∈ S) :
    Delivers S (S.map (fun d => (0, d)) ++ [(0, e)]) := by
  intro d
  constructor
  · exact fun hd => ⟨0, by simp [hd]⟩
  · rintro ⟨now, hd⟩
    obtain hd | hd := List.mem_append.mp hd
    · obtain ⟨d', hd', heq⟩ := List.mem_map.mp hd
      obtain ⟨-, rfl⟩ := Prod.mk.inj heq
      exact hd'
    · obtain ⟨-, rfl⟩ := Prod.mk.inj (List.mem_singleton.mp hd)
      exact he

/-- What is recorded for an observation is what some event says of it. -/
theorem exists_of_segment (h : Delivers S l) (hfits : Fits capacity S) {vehicle : VehicleId} {t : ℤ}
    {segment : List P}
    (hseg : ((TraceStore.new capacity).ingestAll l).segment vehicle t = some segment) :
    ∃ e ∈ S, e.vehicleId = vehicle ∧ e.diff.segment t = some segment := by
  rw [TraceStore.segment_ingestAll hfits h.mem] at hseg
  obtain ⟨delivery, hd, hseg⟩ := List.exists_of_findSome?_eq_some hseg
  split at hseg
  · exact ⟨delivery.2, h.mem _ (List.mem_reverse.mp hd), ‹_›, hseg⟩
  · cases hseg

/-- What an event says of an observation is recorded, if the events agree. -/
theorem segment_of_agree (h : Delivers S l) (hfits : Fits capacity S) (hagree : Agree S)
    {e : MatchedEvent E P} (he : e ∈ S) {t : ℤ} {segment : List P}
    (hseg : e.diff.segment t = some segment) :
    ((TraceStore.new capacity).ingestAll l).segment e.vehicleId t = some segment := by
  cases hrec : ((TraceStore.new capacity).ingestAll l).segment e.vehicleId t with
  | none =>
    rw [TraceStore.segment_ingestAll hfits h.mem, List.findSome?_eq_none_iff] at hrec
    obtain ⟨now, hd⟩ := (h e).mp he
    have hnone := hrec (now, e) (List.mem_reverse.mpr hd)
    rw [if_pos rfl, hseg] at hnone
    cases hnone
  | some recorded =>
    obtain ⟨d, hd, hv, hdseg⟩ := h.exists_of_segment hfits hrec
    rw [hagree d hd e he hv t recorded segment hdseg hseg]

/-- A vehicle has a trace if some event of its has layers. -/
theorem isSome_layers (h : Delivers S l) (hfits : Fits capacity S) (vehicle : VehicleId) :
    (((TraceStore.new capacity).ingestAll l).layers vehicle).isSome
      ↔ ∃ e ∈ S, e.vehicleId = vehicle ∧ e.diff.layers ≠ [] := by
  rw [TraceStore.isSome_layers_ingestAll hfits h.mem]
  constructor
  · rintro ⟨delivery, hd, he⟩
    exact ⟨delivery.2, h.mem _ hd, he⟩
  · rintro ⟨e, he, hv⟩
    obtain ⟨now, hd⟩ := (h e).mp he
    exact ⟨(now, e), hd, hv⟩

/-- Two deliveries of events that agree record the same segments. -/
theorem segment_congr {l' : List (ℕ × MatchedEvent E P)} (h : Delivers S l) (h' : Delivers S l')
    (hfits : Fits capacity S) (hagree : Agree S) (vehicle : VehicleId) (t : ℤ) :
    ((TraceStore.new capacity).ingestAll l).segment vehicle t
      = ((TraceStore.new capacity).ingestAll l').segment vehicle t := by
  cases hseg : ((TraceStore.new capacity).ingestAll l).segment vehicle t with
  | some segment =>
    obtain ⟨e, he, rfl, hdseg⟩ := h.exists_of_segment hfits hseg
    exact (h'.segment_of_agree hfits hagree he hdseg).symm
  | none =>
    cases hseg' : ((TraceStore.new capacity).ingestAll l').segment vehicle t with
    | none => rfl
    | some segment =>
      obtain ⟨e, he, rfl, hdseg⟩ := h'.exists_of_segment hfits hseg'
      rw [h.segment_of_agree hfits hagree he hdseg] at hseg
      cases hseg

/-- Two deliveries of events that agree leave the same traces. -/
theorem layers_congr {l' : List (ℕ × MatchedEvent E P)} (h : Delivers S l) (h' : Delivers S l')
    (hfits : Fits capacity S) (hagree : Agree S) (vehicle : VehicleId) :
    ((TraceStore.new capacity).ingestAll l).layers vehicle
      = ((TraceStore.new capacity).ingestAll l').layers vehicle := by
  have hsegment := h.segment_congr h' hfits hagree vehicle
  have hsome := (h.isSome_layers hfits vehicle).trans (h'.isSome_layers hfits vehicle).symm
  unfold TraceStore.segment at hsegment
  cases hold : ((TraceStore.new capacity).ingestAll l).layers vehicle with
  | none =>
    rw [hold] at hsome
    cases hold' : ((TraceStore.new capacity).ingestAll l').layers vehicle with
    | none => rfl
    | some layers' => simp [hold'] at hsome
  | some layers =>
    rw [hold] at hsome hsegment
    cases hold' : ((TraceStore.new capacity).ingestAll l').layers vehicle with
    | none => simp [hold'] at hsome
    | some layers' =>
      rw [hold'] at hsegment
      exact congrArg some (ExtTreeMap.ext_getElem? hsegment)

end Delivers

/-- **Delivery does not matter exactly if the emissions agree on what they share.** -/
theorem convergesByRevision_iff {capacity : ℕ} {S : List (MatchedEvent E P)}
    (h : Fits capacity S) : ConvergesByRevision capacity S ↔ Agree S := by
  constructor
  · -- Whichever of two emissions comes last decides.
    intro hconv e he e' he' hv t segment segment' hseg hseg'
    have hlast : ∀ d ∈ S, ∀ segment, d.diff.segment t = some segment →
        ((TraceStore.new capacity).ingestAll (S.map (fun d => (0, d)) ++ [(0, d)])).segment
          d.vehicleId t = some segment := by
      intro d hd segment hdseg
      rw [TraceStore.segment_ingestAll h (Delivers.ending hd).mem, List.reverse_append,
        List.reverse_singleton, List.singleton_append, List.findSome?_cons, if_pos rfl, hdseg]
    have hlayers := (hconv _ (Delivers.ending he)).2 _ (Delivers.ending he') e.vehicleId
    have heq := hlast e he segment hseg
    rw [TraceStore.segment, hlayers, hv] at heq
    exact Option.some.inj (heq.symm.trans (hlast e' he' segment' hseg'))
  · intro hagree l hl
    refine ⟨fun vehicle t => ⟨fun segment hseg => ?_, fun hnone e he hv => ?_⟩,
      fun l' hl' vehicle => ?_⟩
    · obtain ⟨e, he, rfl, hdseg⟩ := hl.exists_of_segment h hseg
      obtain ⟨d, hd, hv, hsome, hmax⟩ := exists_highest he (t := t) (by rw [hdseg]; rfl)
      obtain ⟨highest, hhighest⟩ := Option.isSome_iff_exists.mp hsome
      have heq := hagree d hd e he hv t highest segment hhighest hdseg
      exact ⟨d, hd, hv, heq ▸ hhighest, hmax⟩
    · subst hv
      by_contra hsome
      obtain ⟨segment, hseg⟩ := Option.ne_none_iff_exists'.mp hsome
      rw [hl.segment_of_agree h hagree he hseg] at hnone
      cases hnone
    · exact hl.layers_congr hl' h hagree vehicle

/-- An emission of one layer. -/
def emission (revision : ℕ) (position : Point) : MatchedEvent ℕ Point :=
  { vehicleId := ⟨1⟩
    diff :=
      { revision := revision
        downgraded := false
        layers := [⟨1000, ⟨0, 1, 1, ⟨0, .outgoing⟩⟩, position, []⟩] } }

/-- Emissions of one layer contain one observation. -/
theorem fits_emissions {S : List (MatchedEvent ℕ Point)}
    (h : ∀ e ∈ S, ∃ revision position, e = emission revision position) : Fits 1 S := by
  intro vehicle
  rw [← Finset.card_singleton (1000 : ℤ)]
  refine Finset.card_le_card fun t ht => ?_
  rw [timestamps, List.mem_toFinset, List.mem_flatMap] at ht
  obtain ⟨e, he, ht⟩ := ht
  obtain ⟨revision, position, rfl⟩ := h e (List.mem_of_mem_filter he)
  simpa [emission] using ht

/-- A solve, and the one that superseded it and says the same. -/
def agreeingEmissions : List (MatchedEvent ℕ Point) := [emission 2 ⟨0, 0⟩, emission 1 ⟨0, 0⟩]

/-- Whichever of the two comes last, and however often. -/
theorem convergesByRevision_iff_agreeing : ConvergesByRevision 1 agreeingEmissions := by
  have hmem : ∀ e ∈ agreeingEmissions, e = emission 2 ⟨0, 0⟩ ∨ e = emission 1 ⟨0, 0⟩ := by
    intro e he
    simpa [agreeingEmissions] using he
  have hfits : Fits 1 agreeingEmissions := fits_emissions fun _ he => by
    obtain rfl | rfl := hmem _ he
    exacts [⟨_, _, rfl⟩, ⟨_, _, rfl⟩]
  have hsegment : ∀ e ∈ agreeingEmissions, e.diff.segment = (emission 1 ⟨0, 0⟩).diff.segment := by
    intro e he
    obtain rfl | rfl := hmem _ he
    · rfl
    · rfl
  refine (convergesByRevision_iff hfits).mpr fun e he e' he' _ t segment segment' hseg hseg' => ?_
  rw [hsegment e he] at hseg
  rw [hsegment e' he'] at hseg'
  exact Option.some.inj (hseg.symm.trans hseg')

/-- A solve that arrives after the one that superseded it. -/
def lateEmissions : List (MatchedEvent ℕ Point) := [emission 2 ⟨1, 0⟩, emission 1 ⟨0, 0⟩]

/-- **A late emission replaces one of a higher revision.** -/
theorem lateEmissions_not_convergesByRevision :
    Fits 1 lateEmissions ∧ ¬ ConvergesByRevision 1 lateEmissions := by
  have hmem : ∀ e ∈ lateEmissions, e = emission 2 ⟨1, 0⟩ ∨ e = emission 1 ⟨0, 0⟩ := by
    intro e he
    simpa [lateEmissions] using he
  have hfits : Fits 1 lateEmissions := fits_emissions fun _ he => by
    obtain rfl | rfl := hmem _ he
    exacts [⟨_, _, rfl⟩, ⟨_, _, rfl⟩]
  refine ⟨hfits, fun hconv => ?_⟩
  have hdelivers : Delivers lateEmissions [(0, emission 2 ⟨1, 0⟩), (0, emission 1 ⟨0, 0⟩)] := by
    intro e
    simp only [lateEmissions, List.mem_cons, List.not_mem_nil, or_false, Prod.mk.injEq]
    exact ⟨fun he => ⟨0, by simpa using he⟩, fun ⟨_, he⟩ => he.imp And.right And.right⟩
  -- The older solve comes last, and its segment is recorded.
  have hsegment := TraceStore.segment_ingestAll hfits hdelivers.mem ⟨1⟩ 1000
  obtain ⟨e, he, -, hseg, hmax⟩ := ((hconv _ hdelivers).1 ⟨1⟩ 1000).1 [⟨0, 0⟩] (by
    rw [hsegment]
    decide)
  have hle := hmax (emission 2 ⟨1, 0⟩) (by simp [lateEmissions]) rfl (by decide)
  obtain rfl | rfl := hmem e he
  · exact absurd hseg (by decide)
  · exact absurd hle (by decide)

end Routers
