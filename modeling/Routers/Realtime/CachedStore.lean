import Routers.Library.Newest
import Routers.Realtime.Event
import Routers.Realtime.Placement

/-!
# The cached store

The history of a vehicle is a stream on the primary that owns its key.  A process may keep a window
of it per vehicle: a read fills the window, and what the process observes is rolled into it, so
that later reads need not ask the store.  Windows are evicted at any time.

The code rolls an item into a window that is not there by making a window of that item alone.  The
next read takes it for the history, whatever the store holds.

## Main definitions

* `Storable`, `RedisStore` — what is stored, and the fleet that holds it.
* `RedisStore.getMany`, `RedisStore.writeMany` — a read, and a write spread over the primaries.
* `CachedRedisStore` — the store with its windows.
* `CachedRedisStore.Call`, `run` — sequences of calls.
* `Histories` — what has been stored, and what the windows stand for.

## Main results

* `RedisStore.Keeps.getMany_eq` — the store answers with the newest items.
* `CachedRedisStore.Sound.run` — **a window is the newest of what it stands for.**
* `CachedRedisStore.Sound.getMany_eq_iff` — when what was pushed since is enough.
* `CachedRedisStore.cached_window` — **a window that stands for enough of what is stored is that of
  the store.**

## References

`src/libs/routers_realtime/src/store/redis.rs` and `src/libs/routers_realtime/src/store/mod.rs`.
-/

namespace Routers

open Newest

/-! ### The store -/

/-- What can be stored: an item has a shard and a key, both printed, and a serialised form. -/
class Storable (T : Type) where
  shardId : T → String
  key : T → String
  toBytes : T → Option (List UInt8)
  fromBytes : List UInt8 → Option T

/-- The fields of a stream entry. -/
abbrev Fields : Type := List (String × List UInt8)

/-- `XADD` of an entry to the stream of a key. -/
structure Add where
  key : String
  fields : Fields

/-- The key of a vehicle's stream, by the vehicle's printed name. -/
def positionsKey (id : String) : String := "vehicle:" ++ id ++ ":positions"

/-- The vehicle in keys: its number. -/
def VehicleId.display (vehicle : VehicleId) : String := toString vehicle.id.toNat

/-- The primary a key is placed on.  A fleet is not empty, so there is one. -/
def Placement.node (placement : Placement) (key : String) : ℕ := (placement.indexFor key).getD 0

/-- The primaries of a fleet, each with the streams it holds, oldest entry first. -/
structure RedisStore where
  placement : Placement
  primaries : ℕ → String → List Fields

/-- What becomes of a write: how many commands of its pipeline each primary carries out, and how
many entries over the limit each of them leaves in its stream.  A write that succeeds has all
carried out. -/
structure Fate where
  executed : ℕ → ℕ
  excess : ℕ → ℕ → ℕ

/-- `XADD … MAXLEN ~ limit`: the oldest entries go, but for some that may stay over the limit. -/
def xadd (limit excess : ℕ) (streams : String → List Fields) (add : Add) : String → List Fields :=
  let stream := streams add.key ++ [add.fields]
  Function.update streams add.key (stream.drop (stream.length - (limit + excess)))

/-- The commands a primary carries out, in order. -/
def execute (limit : ℕ) (excess : ℕ → ℕ) (adds : List Add) (streams : String → List Fields) :
    String → List Fields :=
  adds.zipIdx.foldl (fun streams p => xadd limit (excess p.2) streams p.1) streams

namespace RedisStore

variable {T : Type} [Storable T]

/-- The fields an item is stored as. -/
def entry (item : T) : Option Fields :=
  (Storable.toBytes item).map fun value =>
    [("shard", (Storable.shardId item).toUTF8.toList), ("val", value)]

/-- The command that stores an item. -/
def command (item : T) : Option Add := (entry item).map (⟨positionsKey (Storable.key item), ·⟩)

/-- The stream of a key, on the primary that owns it. -/
def stream (store : RedisStore) (key : String) : List Fields :=
  store.primaries (store.placement.node key) key

/-- `XREVRANGE … COUNT len`, decoded.  An entry without a value is passed over; one that is not
read back fails the call. -/
def getMany (store : RedisStore) (vehicle : VehicleId) (len : ℕ) : Option (List T) :=
  let reply := newest len (store.stream (positionsKey vehicle.display))
  (reply.filterMap fun fields => fields.lookup "val").mapM Storable.fromBytes

/-- The commands for one primary. -/
def pipeline (store : RedisStore) (adds : List Add) (node : ℕ) : List Add :=
  adds.filter fun add => store.placement.node add.key = node

/-- One pipeline for each primary the batch touches.  An item that cannot be serialised fails the
call before anything is sent. -/
def writeMany (store : RedisStore) (batch : List T) (limit : ℕ) (fate : Fate) : RedisStore :=
  match batch.mapM command with
  | none => store
  | some adds =>
    ⟨store.placement, fun node =>
      execute limit (fate.excess node) ((store.pipeline adds node).take (fate.executed node))
        (store.primaries node)⟩

/-! ### What the store keeps -/

/-- An item that is read back as it was written. -/
def Kept (item : T) : Prop :=
  ∃ value, Storable.toBytes item = some value ∧ Storable.fromBytes value = some item

/-- The stored form of an item; no fields where it cannot be serialised. -/
def fieldsOf (item : T) : Fields := (entry item).getD []

/-- The command that stores an item that can be. -/
def addOf (item : T) : Add := ⟨positionsKey (Storable.key item), fieldsOf item⟩

/-- The items of a vehicle that a write brings to the store. -/
def carried (placement : Placement) (batch : List T) (fate : Fate) (vehicle : VehicleId) : List T :=
  let key := positionsKey vehicle.display
  let node := placement.node key
  match batch.mapM command with
  | none => []
  | some _ =>
    ((batch.filter fun item => placement.node (positionsKey (Storable.key item)) = node).take
      (fate.executed node)).filter fun item => positionsKey (Storable.key item) = key

/-- Every vehicle's stream is its log, but for old entries beyond a window of `len`. -/
structure Keeps (len : ℕ) (store : RedisStore) (log : VehicleId → List T) : Prop where
  trimmed : ∀ vehicle, Trimmed len (store.stream (positionsKey vehicle.display))
    ((log vehicle).map fieldsOf)
  kept : ∀ vehicle, ∀ item ∈ log vehicle, Kept item

theorem command_of_kept {item : T} (h : Kept item) : command item = some (addOf item) := by
  obtain ⟨value, hvalue, -⟩ := h
  rw [command, addOf, fieldsOf, entry, hvalue]
  rfl

theorem mapM_command_of_kept {batch : List T} (h : ∀ item ∈ batch, Kept item) :
    batch.mapM command = some (batch.map addOf) := by
  induction batch with
  | nil => rfl
  | cons item batch ih =>
    obtain ⟨hitem, hbatch⟩ := List.forall_mem_cons.mp h
    rw [List.mapM_cons, command_of_kept hitem, ih hbatch]
    rfl

/-- Stored items are read back. -/
theorem mapM_fromBytes_of_kept {items : List T} (h : ∀ item ∈ items, Kept item) :
    ((items.map fieldsOf).filterMap fun fields => fields.lookup "val").mapM Storable.fromBytes
      = some items := by
  induction items with
  | nil => rfl
  | cons item items ih =>
    obtain ⟨⟨value, hvalue, hread⟩, hitems⟩ := List.forall_mem_cons.mp h
    have hlookup : (fieldsOf item).lookup "val" = some value := by
      rw [fieldsOf, entry, hvalue]
      rfl
    rw [List.map_cons, List.filterMap_cons, hlookup]
    simp only [List.mapM_cons, hread, ih hitems]
    rfl

/-- **The store answers with the newest items of a vehicle.** -/
theorem Keeps.getMany_eq {len : ℕ} {store : RedisStore} {log : VehicleId → List T}
    (h : store.Keeps len log) (vehicle : VehicleId) :
    store.getMany vehicle len = some (newest len (log vehicle)) := by
  rw [getMany, (h.trimmed vehicle).newest_eq, newest_map]
  exact mapM_fromBytes_of_kept fun item hitem => h.kept vehicle item (mem_of_mem_newest hitem)

/-- A pipeline appends to each stream its entries, and trims it to no less than a window. -/
theorem execute_trimmed {len limit : ℕ} (hlimit : len ≤ limit) (excess : ℕ → ℕ) (key : String)
    {adds : List Add} {streams : String → List Fields} {log : List Fields}
    (h : Trimmed len (streams key) log) : Trimmed len (execute limit excess adds streams key)
      (log ++ (adds.filter fun add => add.key = key).map Add.fields) := by
  rw [execute]
  generalize 0 = start
  induction adds generalizing start streams log with
  | nil => simpa using h
  | cons add adds ih =>
    rw [List.zipIdx_cons, List.foldl_cons, List.filter_cons]
    by_cases hkey : add.key = key
    · have hstep : Trimmed len (xadd limit (excess start) streams add key)
          (log ++ [add.fields]) := by
        subst hkey
        rw [xadd, Function.update_self]
        exact h.snoc_drop (hlimit.trans (Nat.le_add_right _ _)) _
      rw [if_pos (decide_eq_true hkey), List.map_cons, List.append_cons]
      exact ih hstep (start + 1)
    · have hother : xadd limit (excess start) streams add key = streams key :=
        Function.update_of_ne (Ne.symm hkey) _ _
      rw [if_neg (by simpa using hkey)]
      exact ih (by rwa [hother]) (start + 1)

/-- A write adds to the log what it brings to the store. -/
theorem Keeps.writeMany {len limit : ℕ} (hlimit : len ≤ limit) {store : RedisStore}
    {log : VehicleId → List T} (h : store.Keeps len log) {batch : List T}
    (hbatch : ∀ item ∈ batch, Kept item) (fate : Fate) :
    (store.writeMany batch limit fate).Keeps len fun vehicle =>
      log vehicle ++ carried store.placement batch fate vehicle := by
  have hadds := mapM_command_of_kept hbatch
  refine ⟨fun vehicle => ?_, fun vehicle item hitem => ?_⟩
  · have hcarried : (carried store.placement batch fate vehicle).map fieldsOf
        = (((store.pipeline (batch.map addOf)
            (store.placement.node (positionsKey vehicle.display))).take
              (fate.executed (store.placement.node (positionsKey vehicle.display)))).filter
                fun add => add.key = positionsKey vehicle.display).map Add.fields := by
      rw [carried, hadds, pipeline, List.filter_map, ← List.map_take, List.filter_map, List.map_map]
      rfl
    have hstream : (store.writeMany batch limit fate).stream (positionsKey vehicle.display)
        = execute limit (fate.excess (store.placement.node (positionsKey vehicle.display)))
            ((store.pipeline (batch.map addOf)
              (store.placement.node (positionsKey vehicle.display))).take
                (fate.executed (store.placement.node (positionsKey vehicle.display))))
            (store.primaries (store.placement.node (positionsKey vehicle.display)))
            (positionsKey vehicle.display) := by
      rw [RedisStore.writeMany, hadds]
      rfl
    rw [List.map_append, hcarried, hstream]
    exact execute_trimmed hlimit _ _ (h.trimmed vehicle)
  · rcases List.mem_append.mp hitem with hitem | hitem
    · exact h.kept vehicle item hitem
    · rw [carried, hadds] at hitem
      have hsent := List.mem_of_mem_take (List.mem_of_mem_filter hitem)
      exact hbatch item (List.mem_of_mem_filter hsent)

end RedisStore

/-! ### The windows -/

/-- A store, and a window of some vehicles' histories, newest first. -/
structure CachedRedisStore (T : Type) where
  store : RedisStore
  cache : VehicleId → Option (List T)

namespace CachedRedisStore

variable {T : Type} [Storable T]

/-- The store, before any window is filled. -/
def new (store : RedisStore) : CachedRedisStore T := ⟨store, fun _ => none⟩

/-- Read the window, or the store, whose answer becomes the window. -/
def getMany (c : CachedRedisStore T) (vehicle : VehicleId) (len : ℕ) :
    Option (List T) × CachedRedisStore T :=
  match c.cache vehicle with
  | some cached => (some cached, c)
  | none =>
    match c.store.getMany vehicle len with
    | none => (none, c)
    | some entries =>
      (some entries, { c with cache := Function.update c.cache vehicle (some entries) })

/-- Roll an item into the window. -/
def push (c : CachedRedisStore T) (key : VehicleId) (item : T) (len : ℕ) : CachedRedisStore T :=
  match c.cache key with
  | some entries =>
    { c with cache := Function.update c.cache key (some ((item :: entries).take len)) }
  | none => { c with cache := Function.update c.cache key (some [item]) }

/-- Writes go to the store alone, past the windows. -/
def writeMany (c : CachedRedisStore T) (batch : List T) (limit : ℕ) (fate : Fate) :
    CachedRedisStore T :=
  { c with store := c.store.writeMany batch limit fate }

/-- A window is evicted, as any insertion may cause. -/
def evict (c : CachedRedisStore T) (vehicle : VehicleId) : CachedRedisStore T :=
  { c with cache := Function.update c.cache vehicle none }

/-- What can happen.  A read that fails at the store changes nothing, and is left out. -/
inductive Call (T : Type)
  | getMany (vehicle : VehicleId)
  | push (key : VehicleId) (item : T)
  | writeMany (batch : List T) (limit : ℕ) (fate : Fate)
  | evict (vehicle : VehicleId)

/-- What a call leaves. -/
def exec (len : ℕ) (c : CachedRedisStore T) : Call T → CachedRedisStore T
  | .getMany vehicle => (c.getMany vehicle len).2
  | .push key item => c.push key item len
  | .writeMany batch limit fate => c.writeMany batch limit fate
  | .evict vehicle => c.evict vehicle

/-- The store and its windows after a sequence of calls, from no windows. -/
def run (len : ℕ) (store : RedisStore) (calls : List (Call T)) : CachedRedisStore T :=
  calls.foldl (exec len) (new store)

/-- The items pushed to a vehicle's window. -/
def pushed (vehicle : VehicleId) (calls : List (Call T)) : List T :=
  calls.filterMap fun
    | .push key item => if key = vehicle then some item else none
    | _ => none

/-- The items of a vehicle brought to the store. -/
def written (placement : Placement) (vehicle : VehicleId) (calls : List (Call T)) : List T :=
  calls.flatMap fun
    | .writeMany batch _ fate => RedisStore.carried placement batch fate vehicle
    | _ => []

end CachedRedisStore

/-! ### Histories -/

/-- All that the store has been brought of each vehicle, and all that each window stands for. -/
structure Histories (T : Type) where
  stored : VehicleId → List T
  windows : VehicleId → Option (List T)

namespace Histories

open CachedRedisStore

variable {T : Type} [Storable T]

/-- A read makes a window that is not there stand for what is stored; a push, for the item alone.
Then the items pushed come to it. -/
def exec (placement : Placement) (h : Histories T) : Call T → Histories T
  | .getMany vehicle =>
    match h.windows vehicle with
    | some _ => h
    | none => { h with windows := Function.update h.windows vehicle (some (h.stored vehicle)) }
  | .push key item =>
    { h with
        windows := Function.update h.windows key (some ((h.windows key).getD [] ++ [item])) }
  | .writeMany batch _ fate =>
    { h with
        stored := fun vehicle =>
          h.stored vehicle ++ RedisStore.carried placement batch fate vehicle }
  | .evict vehicle => { h with windows := Function.update h.windows vehicle none }

/-- The histories after a sequence of calls, from no windows. -/
def run (placement : Placement) (init : VehicleId → List T) (calls : List (Call T)) :
    Histories T :=
  calls.foldl (exec placement) ⟨init, fun _ => none⟩

/-- The window of a vehicle is current, if there is one: what it stands for is the end of what is
stored, all of it or no less than a window's worth. -/
def Current (len : ℕ) (h : Histories T) (vehicle : VehicleId) : Prop :=
  ∀ window, h.windows vehicle = some window → Trimmed len window (h.stored vehicle)

/-- What is stored is what there was at first and what has been written. -/
theorem stored_run (placement : Placement) (init : VehicleId → List T) (calls : List (Call T))
    (vehicle : VehicleId) :
    (run placement init calls).stored vehicle
      = init vehicle ++ written placement vehicle calls := by
  induction calls using List.reverseRecOn with
  | nil => exact (List.append_nil _).symm
  | append_singleton calls call ih =>
    rw [run, List.foldl_concat, written, List.flatMap_append, List.flatMap_singleton,
      ← List.append_assoc]
    change (exec placement (run placement init calls) call).stored vehicle
      = init vehicle ++ written placement vehicle calls ++ _
    rw [← ih]
    cases call with
    | getMany read =>
      rw [exec]
      split <;> exact (List.append_nil _).symm
    | push key item => exact (List.append_nil _).symm
    | writeMany batch limit fate => rfl
    | evict evicted => exact (List.append_nil _).symm

end Histories

namespace CachedRedisStore

variable {T : Type} [Storable T]

/-! ### What a run leaves -/

/-- A write keeps a window's worth of each history, of items that are read back as they are. -/
def Call.Kept (len : ℕ) : Call T → Prop
  | .writeMany batch limit _ => len ≤ limit ∧ ∀ item ∈ batch, RedisStore.Kept item
  | _ => True

/-- What holds throughout a run: the store keeps what it has been brought, and the windows are those
of what they stand for. -/
structure Sound (len : ℕ) (placement : Placement) (h : Histories T) (c : CachedRedisStore T) :
    Prop where
  placement_eq : c.store.placement = placement
  keeps : c.store.Keeps len h.stored
  windows : Windows len h.windows c.cache

section Sound

variable {len : ℕ} {placement : Placement} {h : Histories T} {c : CachedRedisStore T}

theorem Sound.getMany (hs : Sound len placement h c) (vehicle : VehicleId) :
    Sound len placement (h.exec placement (.getMany vehicle)) (c.getMany vehicle len).2 := by
  have hcache := hs.windows vehicle
  rw [CachedRedisStore.getMany, Histories.exec]
  cases hwindow : h.windows vehicle with
  | some window =>
    rw [hcache, hwindow]
    exact hs
  | none =>
    -- the answer of the store becomes the window
    rw [hcache, hwindow]
    simp only [Option.map_none, hs.keeps.getMany_eq vehicle]
    exact ⟨hs.placement_eq, hs.keeps, hs.windows.update vehicle rfl⟩

theorem Sound.push (hlen : 0 < len) (hs : Sound len placement h c) (key : VehicleId) (item : T) :
    Sound len placement (h.exec placement (.push key item)) (c.push key item len) := by
  have hcache := hs.windows key
  rw [CachedRedisStore.push, Histories.exec]
  cases hwindow : h.windows key with
  | some window =>
    rw [hcache, hwindow]
    refine ⟨hs.placement_eq, hs.keeps, hs.windows.update key ?_⟩
    rw [Option.getD_some, Option.map_some, newest_snoc]
  | none =>
    rw [hcache, hwindow]
    refine ⟨hs.placement_eq, hs.keeps, hs.windows.update key ?_⟩
    rw [Option.getD_none, Option.map_some, newest_snoc, newest_nil,
      List.take_of_length_le (by rw [List.length_singleton]; exact hlen)]

theorem Sound.writeMany (hs : Sound len placement h c) {batch : List T} {limit : ℕ}
    (hlimit : len ≤ limit) (hbatch : ∀ item ∈ batch, RedisStore.Kept item) (fate : Fate) :
    Sound len placement (h.exec placement (.writeMany batch limit fate))
      (c.writeMany batch limit fate) := by
  have hkeeps := hs.keeps.writeMany hlimit hbatch fate
  rw [hs.placement_eq] at hkeeps
  refine ⟨?_, hkeeps, hs.windows⟩
  rw [CachedRedisStore.writeMany, RedisStore.writeMany]
  split
  · exact hs.placement_eq
  · exact hs.placement_eq

theorem Sound.evict (hs : Sound len placement h c) (vehicle : VehicleId) :
    Sound len placement (h.exec placement (.evict vehicle)) (c.evict vehicle) :=
  ⟨hs.placement_eq, hs.keeps, hs.windows.update vehicle rfl⟩

/-- **What holds throughout a run.** -/
theorem Sound.run (hlen : 0 < len) {store : RedisStore} {init : VehicleId → List T}
    (hinit : store.Keeps len init) {calls : List (Call T)}
    (hcalls : ∀ call ∈ calls, call.Kept len) :
    Sound len store.placement (Histories.run store.placement init calls) (run len store calls) := by
  induction calls using List.reverseRecOn with
  | nil => exact ⟨rfl, hinit, fun _ => rfl⟩
  | append_singleton calls call ih =>
    rw [CachedRedisStore.run, Histories.run, List.foldl_concat, List.foldl_concat]
    have ih := ih fun call hcall => hcalls call (List.mem_append_left _ hcall)
    have hcall := hcalls call (List.mem_append_right _ (List.mem_singleton_self _))
    cases call with
    | getMany vehicle => exact ih.getMany vehicle
    | push key item => exact ih.push hlen key item
    | writeMany batch limit fate => exact ih.writeMany hcall.1 hcall.2 fate
    | evict vehicle => exact ih.evict vehicle

/-- What a read answers with: the newest of what its window stands for, or of what is stored. -/
theorem Sound.getMany_fst (hs : Sound len placement h c) (vehicle : VehicleId) :
    (c.getMany vehicle len).1
      = some (newest len ((h.windows vehicle).getD (h.stored vehicle))) := by
  have hcache := hs.windows vehicle
  rw [CachedRedisStore.getMany]
  cases hwindow : h.windows vehicle with
  | some window => rw [hcache, hwindow, Option.map_some, Option.getD_some]
  | none =>
    rw [hcache, hwindow]
    simp only [Option.map_none, hs.keeps.getMany_eq vehicle, Option.getD_none]

/-- When a window of what has been stored last is read rightly. -/
theorem Sound.getMany_eq_iff (hs : Sound len placement h c) {vehicle : VehicleId} {window : List T}
    (hwindow : h.windows vehicle = some window) (hlast : window <:+ h.stored vehicle) :
    (c.getMany vehicle len).1 = some (newest len (h.stored vehicle)) ↔
      h.Current len vehicle := by
  rw [hs.getMany_fst, hwindow, Option.getD_some, Option.some.injEq,
    newest_eq_iff_of_suffix hlast]
  constructor
  · intro hlength window' hwindow'
    cases hwindow.symm.trans hwindow'
    exact ⟨hlast, hlength⟩
  · exact fun hcurrent => (hcurrent window hwindow).le_length

end Sound

/-- **The cached window is the newest items of the store**, wherever it is current, in every run
whose writes keep a window's worth: a read answers with them, newest first, and so would the
store. -/
theorem cached_window {len : ℕ} (hlen : 0 < len) {store : RedisStore} {init : VehicleId → List T}
    (hinit : store.Keeps len init) {calls : List (Call T)} (hcalls : ∀ call ∈ calls, call.Kept len)
    {vehicle : VehicleId}
    (hread : (Histories.run store.placement init calls).Current len vehicle) :
    ((run len store calls).getMany vehicle len).1
        = some (newest len (init vehicle ++ written store.placement vehicle calls)) ∧
      (run len store calls).store.getMany vehicle len
        = some (newest len (init vehicle ++ written store.placement vehicle calls)) := by
  have hsound := Sound.run hlen hinit hcalls
  rw [← Histories.stored_run]
  refine ⟨?_, hsound.keeps.getMany_eq vehicle⟩
  rw [hsound.getMany_fst]
  cases hwindow : (Histories.run store.placement init calls).windows vehicle with
  | none => rfl
  | some window => rw [Option.getD_some, (hread window hwindow).newest_eq]

/-- A reading of vehicle 7, serialised as one byte. -/
structure Reading where
  value : UInt8
  deriving DecidableEq

instance : Storable Reading where
  shardId _ := "u4pruydq"
  key _ := (⟨7⟩ : VehicleId).display
  toBytes reading := some [reading.value]
  fromBytes
    | [value] => some ⟨value⟩
    | _ => none

/-- A fleet of one primary that holds nothing. -/
def onePrimary : RedisStore := ⟨Placement.new ["redis://valkey-000:6379"], fun _ _ => []⟩

/-- The primary carries everything out, and trims to the limit. -/
def carriedOut : Fate := ⟨fun _ => 100, fun _ _ => 0⟩

/-- A reading is written and pushed into no window; the window is evicted, and filled by a read; and
another is written and pushed. -/
def filledBetween : List (Call Reading) :=
  [.writeMany [⟨1⟩] 10 carriedOut, .push ⟨7⟩ ⟨1⟩, .evict ⟨7⟩, .getMany ⟨7⟩,
    .writeMany [⟨2⟩] 10 carriedOut, .push ⟨7⟩ ⟨2⟩]

/-- Both are read from the window. -/
theorem cached_window_filledBetween :
    ((run 2 onePrimary filledBetween).getMany ⟨7⟩ 2).1 = some [⟨2⟩, ⟨1⟩] := by
  have hinit : onePrimary.Keeps 2 fun _ => ([] : List Reading) :=
    ⟨fun _ => Trimmed.refl _ _, fun _ _ h => (List.not_mem_nil h).elim⟩
  have hwrite : ∀ batch : List Reading, (Call.writeMany batch 10 carriedOut).Kept 2 :=
    fun _ => ⟨by decide, fun _ _ => ⟨_, rfl, rfl⟩⟩
  have hcalls : ∀ call ∈ filledBetween, call.Kept 2 := by
    intro call hcall
    simp only [filledBetween, List.mem_cons, List.not_mem_nil, or_false] at hcall
    obtain rfl | rfl | rfl | rfl | rfl | rfl := hcall
    exacts [hwrite _, trivial, trivial, trivial, hwrite _, trivial]
  have hread : (Histories.run onePrimary.placement (fun _ => []) filledBetween).Current 2 ⟨7⟩ := by
    intro window hwindow
    have hstored : (Histories.run onePrimary.placement (fun _ => []) filledBetween).windows ⟨7⟩
        = some ((Histories.run onePrimary.placement (fun _ => []) filledBetween).stored ⟨7⟩) := by
      decide +kernel
    cases hstored.symm.trans hwindow
    exact Trimmed.refl _ _
  exact (cached_window (by decide) hinit hcalls hread).1.trans (by decide +kernel)

/-- The same without the read. -/
def evictedBetween : List (Call Reading) :=
  [.writeMany [⟨1⟩] 10 carriedOut, .push ⟨7⟩ ⟨1⟩, .evict ⟨7⟩, .writeMany [⟨2⟩] 10 carriedOut,
    .push ⟨7⟩ ⟨2⟩]

/-- **A push into no window forgets what came before.**  What was pushed is what was written, and
the store holds both readings; the read answers with one. -/
theorem push_forgets :
    pushed ⟨7⟩ evictedBetween = written onePrimary.placement ⟨7⟩ evictedBetween ∧
      (run 2 onePrimary evictedBetween).store.getMany ⟨7⟩ 2 = some [(⟨2⟩ : Reading), ⟨1⟩] ∧
      ((run 2 onePrimary evictedBetween).getMany ⟨7⟩ 2).1 = some [⟨2⟩] :=
  ⟨by decide +kernel, by decide +kernel, by decide +kernel⟩

end CachedRedisStore

end Routers
