import Routers.Library.Text
import Routers.Realtime.Event
import Routers.Realtime.Placement

/-!
# The ingest topology

Raw events are published to the subject of their vehicle's partition.  The subjects divide over the
raw streams of the broker, and over the pods that consume them, in blocks of partitions next to each
other: the last stream may be short, and the last pod takes what is left over.  A pod is told its
block, or derives it from the number at the end of its name.

## Main definitions

* `streamIndex`, `rawStream` — the streams and their subjects.
* `PartitionRange`, `parsePartitions` — a block of partitions, and how it is read.
* `ownedPartitions` — the block of a pod.
* `BadNumber`, `BadBounds` — what is wrong with a text that is no block.
* `podOf` — the pod of a partition.

## Main results

* `streams_partition` — **every partition is in one stream, whatever their number.**
* `parsePartitions_spec` — **a block is accepted exactly if it is one**, and refused for what is
  wrong with it.
* `fleet_partition` — **the pods of a fleet divide the partitions, and with them the vehicles.**

## References

`src/libs/routers_realtime/src/ingest.rs`, `src/libs/routers_realtime/src/partition.rs` and
`src/libs/routers_realtime/bin/orchestrator.rs`.
-/

namespace Routers

open Text (trim isWhitespace)

/-- The number of partitions. -/
def partitionCount : ℕ := partitions.toNat

theorem partitionCount_eq : partitionCount = 1024 := rfl

/-- The number of a vehicle's partition. -/
def VehicleId.partition (vehicle : VehicleId) : ℕ := (partitionOf vehicle.id).toNat

theorem VehicleId.partition_lt (vehicle : VehicleId) : vehicle.partition < partitionCount := by
  rw [VehicleId.partition, partitionOf, UInt64.toNat_mod, partitionCount]
  exact Nat.mod_lt _ (by decide)

/-! ### Subjects -/

/-- Where subjects of raw events begin. -/
def rawPrefix : String := "events.raw.p"

/-- Where subjects of matched events begin. -/
def matchedPrefix : String := "events.matched.p"

/-- The raw-event subject of a partition. -/
def rawSubject (partition : ℕ) : String := rawPrefix ++ "." ++ toString partition

/-- The matched-emission subject of a partition. -/
def matchedSubject (partition : ℕ) : String := matchedPrefix ++ "." ++ toString partition

theorem rawSubject_injective : Function.Injective rawSubject := by
  intro a b h
  have hdigits := congrArg String.toList ((String.append_right_inj _).mp h)
  rw [Nat.toString_eq_repr, Nat.toString_eq_repr, Nat.toList_repr, Nat.toList_repr] at hdigits
  rw [← Nat.ofDigitChars_ten_toDigits (n := a), hdigits, Nat.ofDigitChars_ten_toDigits]

/-! ### Streams -/

/-- Division rounded up. -/
def divCeil (a b : ℕ) : ℕ := if 0 < a % b then a / b + 1 else a / b

/-- The stream that holds a partition, out of so many. -/
def streamIndex (partition streams : ℕ) : ℕ := partition / divCeil partitionCount streams

/-- The name of a stream. -/
def streamName (index : ℕ) : String := "EVENTS-RAW-" ++ toString index

/-- How long a stream keeps its messages. -/
inductive RetentionPolicy
  | limits
  | workQueue
  deriving DecidableEq, Repr

/-- What a stream is asked for with. -/
structure StreamConfig where
  name : String
  subjects : List String
  retention : RetentionPolicy
  deriving DecidableEq, Repr

/-- What a raw stream is created with. -/
def rawStream (index streams : ℕ) : StreamConfig where
  name := streamName index
  subjects :=
    let chunk := divCeil partitionCount streams
    let stop := min ((index + 1) * chunk) partitionCount
    (List.range' (index * chunk) (stop - index * chunk)).map rawSubject
  retention := .workQueue

/-- What a consumer is asked for with. -/
structure ConsumerConfig where
  durableName : String
  filterSubject : String
  deriving DecidableEq, Repr

/-- What the consumer of a partition is created with. -/
def partitionConsumer (partition : ℕ) : ConsumerConfig where
  durableName := "orchestrator-p" ++ toString partition
  filterSubject := rawSubject partition

theorem divCeil_spec {a b : ℕ} (hb : 0 < b) : a ≤ b * divCeil a b ∧ b * divCeil a b < a + b := by
  have hdiv := Nat.div_add_mod a b
  have hlt := Nat.mod_lt a hb
  unfold divCeil
  split
  · rw [Nat.mul_add, Nat.mul_one]
    omega
  · omega

theorem divCeil_pos {streams : ℕ} (hstreams : 0 < streams) :
    0 < divCeil partitionCount streams := by
  refine Nat.pos_of_ne_zero fun hzero => ?_
  have hle := (divCeil_spec (a := partitionCount) hstreams).1
  rw [hzero, Nat.mul_zero] at hle
  exact absurd hle (by decide)

/-- A raw stream holds the partitions of its index. -/
theorem mem_subjects_rawStream_iff {partition streams index : ℕ} (hstreams : 0 < streams) :
    rawSubject partition ∈ (rawStream index streams).subjects ↔
      partition < partitionCount ∧ streamIndex partition streams = index := by
  have hchunk := divCeil_pos hstreams
  rw [rawStream, List.mem_map_of_injective rawSubject_injective, List.mem_range'_1, streamIndex,
    Nat.div_eq_iff hchunk, Nat.add_mul, Nat.one_mul]
  omega

theorem streamIndex_lt {partition streams : ℕ} (hpartition : partition < partitionCount)
    (hstreams : 0 < streams) : streamIndex partition streams < streams := by
  rw [streamIndex, Nat.div_lt_iff_lt_mul (divCeil_pos hstreams)]
  exact hpartition.trans_le (divCeil_spec hstreams).1

/-- **The raw streams divide the partitions**, whatever their number: every partition is in exactly
one of them, which the consumer of the partition finds by its index; they are blocks in order; and
nothing on the way goes beyond 64 bits. -/
theorem streams_partition {streams : ℕ} (hstreams : 0 < streams) (h64 : streams < UInt64.size) :
    (∀ partition < partitionCount, ∀ index,
      (partitionConsumer partition).filterSubject ∈ (rawStream index streams).subjects ↔
        index = streamIndex partition streams) ∧
    (∀ partition < partitionCount, streamIndex partition streams < streams) ∧
    (∀ a b, a ≤ b → streamIndex a streams ≤ streamIndex b streams) ∧
    (∀ index < streams, (rawStream index streams).subjects.Nodup ∧
      ∀ subject ∈ (rawStream index streams).subjects,
        ∃ partition < partitionCount, subject = rawSubject partition) ∧
    ∀ index < streams, (index + 1) * divCeil partitionCount streams < UInt64.size := by
  refine ⟨fun partition hpartition index => ?_, fun partition h => streamIndex_lt h hstreams,
    fun a b hle => Nat.div_le_div_right hle, fun index _ => ⟨?_, fun subject hsubject => ?_⟩,
    fun index hindex => ?_⟩
  · rw [partitionConsumer, mem_subjects_rawStream_iff hstreams, eq_comm (a := index)]
    exact and_iff_right hpartition
  · exact (List.nodup_map_iff rawSubject_injective).mpr List.nodup_range'
  · obtain ⟨partition, -, rfl⟩ := List.mem_map.mp hsubject
    exact ⟨partition, ((mem_subjects_rawStream_iff hstreams).mp hsubject).1, rfl⟩
  · obtain ⟨hle, hlt⟩ := divCeil_spec (a := partitionCount) hstreams
    have hmul : (index + 1) * divCeil partitionCount streams
        ≤ streams * divCeil partitionCount streams := Nat.mul_le_mul_right _ hindex
    by_cases hfew : streams ≤ partitionCount
    · rw [partitionCount_eq] at hlt hmul hfew
      exact lt_of_le_of_lt (hmul.trans (by omega)) (by decide : 2048 < UInt64.size)
    · -- with more streams than partitions each holds one, or none
      have hone : divCeil partitionCount streams = 1 := by
        rw [divCeil, Nat.mod_eq_of_lt (not_le.mp hfew), Nat.div_eq_of_lt (not_le.mp hfew)]
        rfl
      rw [hone, Nat.mul_one]
      exact lt_of_le_of_lt hindex h64

/-- As the fleet is set by default. -/
theorem streams_partition_four : streamIndex 1023 4 < 4 ∧
    (rawStream 3 4).subjects.Nodup :=
  have h := streams_partition (by decide : 0 < 4) (by decide)
  ⟨h.2.1 1023 (by decide), (h.2.2.2.1 3 (by decide)).1⟩

/-! ### Blocks of partitions -/

/-- A block of partitions, with its ends. -/
structure PartitionRange where
  start : ℕ
  stop : ℕ
  start_le : start ≤ stop
  stop_lt : stop < partitionCount
  deriving DecidableEq, Repr

/-- A partition of the block. -/
def PartitionRange.Contains (range : PartitionRange) (partition : ℕ) : Prop :=
  range.start ≤ partition ∧ partition ≤ range.stop

instance (range : PartitionRange) (partition : ℕ) : Decidable (range.Contains partition) :=
  inferInstanceAs (Decidable (_ ∧ _))

/-- Why a number is not read. -/
inductive ParseIntError
  | empty
  | invalidDigit
  | posOverflow
  deriving DecidableEq, Repr

/-- The message of an error. -/
def ParseIntError.display : ParseIntError → String
  | empty => "cannot parse integer from empty string"
  | invalidDigit => "invalid digit found in string"
  | posOverflow => "number too large to fit in target type"

/-- The greatest number of 64 bits. -/
def maxU64 : ℕ := 18446744073709551615

/-- One more digit. -/
def pushDigit (n : ℕ) (c : Char) : Except ParseIntError ℕ :=
  if c.isDigit then
    let n := 10 * n + (c.toNat - '0'.toNat)
    if n ≤ maxU64 then .ok n else .error .posOverflow
  else .error .invalidDigit

/-- A number of 64 bits in decimal; a plus sign is allowed. -/
def parseU64 (s : List Char) : Except ParseIntError ℕ :=
  match s with
  | [] => .error .empty
  | ['+'] => .error .invalidDigit
  | '+' :: digits => digits.foldlM pushDigit 0
  | digits => digits.foldlM pushDigit 0

/-- The texts before and behind the first separator. -/
def splitOnce (separator : Char) (s : List Char) : Option (List Char × List Char) :=
  if separator ∈ s then
    some (s.takeWhile (· ≠ separator), (s.dropWhile (· ≠ separator)).tail)
  else none

/-- The block from a partition to another, if it is one. -/
def PartitionRange.check (start stop : ℕ) : Except String PartitionRange :=
  if hstart : stop < start then
    .error ("start " ++ toString start ++ " beyond end " ++ toString stop)
  else if hstop : partitionCount ≤ stop then
    .error ("partition " ++ toString stop ++ " outside 0.." ++ toString partitionCount)
  else .ok ⟨start, stop, not_lt.mp hstart, not_le.mp hstop⟩

/-- A block by its ends, or a single partition. -/
def parsePartitions (s : List Char) : Except String PartitionRange :=
  let (start, stop) := (splitOnce '-' s).getD (s, s)
  match parseU64 (trim start) with
  | .error e => .error ("bad start: " ++ e.display)
  | .ok start =>
    match parseU64 (trim stop) with
    | .error e => .error ("bad end: " ++ e.display)
    | .ok stop => PartitionRange.check start stop

theorem le_ofDigitChars (digits : List Char) (n : ℕ) : n ≤ Nat.ofDigitChars 10 digits n := by
  rw [Nat.ofDigitChars_eq_ofDigitChars_zero]
  exact (Nat.le_mul_of_pos_left n (by positivity)).trans (Nat.le_add_right _ _)

/-- Digits are read on until one is none, or there are too many of them. -/
theorem foldlM_pushDigit_eq_ok_iff {digits : List Char} {n m : ℕ} (hn : n ≤ maxU64) :
    digits.foldlM pushDigit n = .ok m ↔
      (∀ c ∈ digits, c.isDigit) ∧ Nat.ofDigitChars 10 digits n = m ∧ m ≤ maxU64 := by
  induction digits generalizing n with
  | nil =>
    rw [List.foldlM_nil, Nat.ofDigitChars_nil]
    constructor
    · intro h
      cases h
      exact ⟨by simp, rfl, hn⟩
    · rintro ⟨-, rfl, -⟩
      rfl
  | cons c digits ih =>
    rw [List.foldlM_cons, Nat.ofDigitChars_cons, List.forall_mem_cons, pushDigit]
    by_cases hdigit : c.isDigit
    · rw [if_pos hdigit]
      by_cases hle : 10 * n + (c.toNat - '0'.toNat) ≤ maxU64
      · simp only [if_pos hle]
        rw [and_iff_right hdigit]
        exact ih hle
      · simp only [if_neg hle]
        refine iff_of_false (by rintro ⟨⟩) ?_
        rintro ⟨-, rfl, hm⟩
        exact hle ((le_ofDigitChars _ _).trans hm)
    · rw [if_neg hdigit]
      exact iff_of_false (by rintro ⟨⟩) fun h => hdigit h.1.1

theorem pushDigit_eq_error_iff {n : ℕ} {c : Char} {e : ParseIntError} :
    pushDigit n c = .error e ↔ (c.isDigit = false ∧ e = .invalidDigit) ∨
      (c.isDigit ∧ maxU64 < 10 * n + (c.toNat - '0'.toNat) ∧ e = .posOverflow) := by
  unfold pushDigit
  generalize 10 * n + (c.toNat - '0'.toNat) = m
  by_cases hdigit : c.isDigit
  · by_cases hle : m ≤ maxU64
    · simp [hdigit, hle, hle.not_gt]
    · simp [hdigit, hle, not_le.mp hle, eq_comm]
  · simp [hdigit, eq_comm]

/-- A number is read as its digits say. -/
theorem parseU64_eq_ok_iff {s : List Char} {n : ℕ} :
    parseU64 s = .ok n ↔ Text.parseUint maxU64 s = some n := by
  have hdigits : ∀ digits : List Char, digits ≠ [] →
      (digits.foldlM pushDigit 0 = .ok n ↔
        (if digits.isEmpty || !digits.all Char.isDigit ||
          decide (maxU64 < Nat.ofDigitChars 10 digits 0) then none
        else some (Nat.ofDigitChars 10 digits 0)) = some n) := by
    intro digits hne
    rw [foldlM_pushDigit_eq_ok_iff (Nat.zero_le _), Option.ite_none_left_eq_some,
      ← List.all_eq_true, Option.some_inj]
    simp only [List.isEmpty_iff, Bool.or_eq_true, Bool.not_eq_true', decide_eq_true_eq, not_or,
      Bool.not_eq_false, not_lt]
    constructor
    · rintro ⟨hall, rfl, hle⟩
      exact ⟨⟨⟨hne, hall⟩, hle⟩, rfl⟩
    · rintro ⟨⟨⟨-, hall⟩, hle⟩, rfl⟩
      exact ⟨hall, rfl, hle⟩
  unfold parseU64 Text.parseUint
  split
  · simp
  · simp
  · next digits hne =>
    exact hdigits digits fun hnil => hne hnil
  · next hne hone hplus =>
    split
    · next digits =>
      exact absurd rfl (hplus digits)
    · exact hdigits s hne

/-- Digits of a number of 64 bits, or none. -/
def FitsU64 (digits : List Char) : Prop :=
  (∀ c ∈ digits, c.isDigit) ∧ Nat.ofDigitChars 10 digits 0 ≤ maxU64

/-- A number without its sign. -/
def unsigned : List Char → List Char
  | '+' :: digits => digits
  | s => s

/-- What is wrong with a number: there is nothing to it; or, behind digits that fit, there is a
character that is no digit; or one that is a digit too many. -/
def BadNumber (s : List Char) : ParseIntError → Prop
  | .empty => s = []
  | .invalidDigit => s = ['+'] ∨ ∃ read c rest, unsigned s = read ++ c :: rest ∧ FitsU64 read ∧
      c.isDigit = false
  | .posOverflow => ∃ read c rest, unsigned s = read ++ c :: rest ∧ FitsU64 read ∧ c.isDigit ∧
      maxU64 < Nat.ofDigitChars 10 (read ++ [c]) 0

/-- **What is said of a number that is not read** is what is wrong with it. -/
theorem parseU64_eq_error_iff {s : List Char} {e : ParseIntError} :
    parseU64 s = .error e ↔ BadNumber s e := by
  have hdigits : ∀ s : List Char, s ≠ [] → s ≠ ['+'] →
      ((unsigned s).foldlM pushDigit 0 = .error e ↔ BadNumber s e) := by
    intro s hempty hsign
    rw [Text.foldlM_eq_error_iff]
    simp only [foldlM_pushDigit_eq_ok_iff (Nat.zero_le _), pushDigit_eq_error_iff]
    cases e with
    | empty => simp [BadNumber, hempty]
    | invalidDigit => simp [BadNumber, hsign, FitsU64]
    | posOverflow => simp [BadNumber, FitsU64, Nat.ofDigitChars_append, Nat.ofDigitChars_cons]
  unfold parseU64
  split
  · cases e <;> simp [BadNumber, unsigned]
  · cases e with
    | posOverflow =>
      refine iff_of_false (by rintro ⟨⟩) ?_
      rintro ⟨read, c, rest, heq, -⟩
      simp [unsigned] at heq
    | _ => simp [BadNumber]
  · next digits hne =>
    exact hdigits ('+' :: digits) (by simp) (by simpa using hne)
  · next hne hone hplus =>
    have hunsigned : unsigned s = s := by
      unfold unsigned
      split
      · next digits => exact absurd rfl (hplus digits)
      · rfl
    rw [← hdigits s hne hone, hunsigned]

theorem trim_between {before text after : List Char} (hbefore : ∀ c ∈ before, isWhitespace c)
    (hafter : ∀ c ∈ after, isWhitespace c) : trim (before ++ text ++ after) = trim text := by
  induction before with
  | cons c before ih =>
    obtain ⟨hc, hbefore⟩ := List.forall_mem_cons.mp hbefore
    rw [List.cons_append, List.cons_append, Text.trim_cons_of_isWhitespace hc]
    exact ih hbefore
  | nil =>
    induction after using List.reverseRecOn with
    | nil => simp
    | append_singleton after c ih =>
      rw [← List.append_assoc, Text.trim_append_of_isWhitespace (hafter c (by simp))]
      exact ih fun d hd => hafter d (List.mem_append_left _ hd)

theorem digit_facts_of_mem {n : ℕ} {c : Char} (hc : c ∈ Nat.toDigits 10 n) :
    isWhitespace c = false ∧ c ≠ '-' := by
  have hdigit : c.isDigit := Nat.isDigit_of_mem_toDigits (by decide) (by decide) hc
  have hascii : c.toNat < 128 := by
    simp only [Char.isDigit, Bool.and_eq_true, decide_eq_true_eq] at hdigit
    exact lt_of_le_of_lt (show c.toNat ≤ 57 from hdigit.2) (by decide)
  revert hdigit
  exact Text.forall_ascii (P := fun c => c.isDigit → isWhitespace c = false ∧ c ≠ '-')
    (by decide) c hascii

/-- A printed number is read back, between blanks as well. -/
theorem parseU64_trim_toDigits {n : ℕ} (hn : n ≤ maxU64) {before after : List Char}
    (hbefore : ∀ c ∈ before, isWhitespace c) (hafter : ∀ c ∈ after, isWhitespace c) :
    parseU64 (trim (before ++ Nat.toDigits 10 n ++ after)) = .ok n := by
  rw [trim_between hbefore hafter,
    Text.trim_eq_self_of_forall fun c hc => (digit_facts_of_mem hc).1]
  exact parseU64_eq_ok_iff.mpr (Text.parseUint_toDigits hn)

theorem splitOnce_append {c : Char} {x : List Char} (hx : c ∉ x) (y : List Char) :
    splitOnce c (x ++ c :: y) = some (x, y) := by
  have hne : ∀ d ∈ x, decide (d ≠ c) := fun d hd => decide_eq_true (ne_of_mem_of_not_mem hd hx)
  rw [splitOnce, if_pos (by simp), List.takeWhile_append_of_pos hne,
    List.dropWhile_append_of_pos hne, List.takeWhile_cons_of_neg (by simp),
    List.dropWhile_cons_of_neg (by simp), List.append_nil, List.tail_cons]

/-- A text is split at its first separator, if it has one. -/
theorem splitOnce_getD_eq_iff {c : Char} {s x y : List Char} :
    (splitOnce c s).getD (s, s) = (x, y) ↔
      (c ∉ x ∧ s = x ++ c :: y) ∨ (c ∉ s ∧ x = s ∧ y = s) := by
  constructor
  · intro h
    by_cases hc : c ∈ s
    · obtain ⟨a, b, rfl, ha⟩ := List.eq_append_cons_of_mem hc
      rw [splitOnce_append ha, Option.getD_some, Prod.mk.injEq] at h
      obtain ⟨rfl, rfl⟩ := h
      exact Or.inl ⟨ha, rfl⟩
    · rw [splitOnce, if_neg hc, Option.getD_none, Prod.mk.injEq] at h
      exact Or.inr ⟨hc, h.1.symm, h.2.symm⟩
  · rintro (⟨hx, rfl⟩ | ⟨hc, rfl, rfl⟩)
    · rw [splitOnce_append hx, Option.getD_some]
    · rw [splitOnce, if_neg hc, Option.getD_none]

theorem PartitionRange.check_eq_ok_iff {start stop : ℕ} {range : PartitionRange} :
    check start stop = .ok range ↔ range.start = start ∧ range.stop = stop := by
  unfold check
  split
  · next hstart =>
    refine iff_of_false (by rintro ⟨⟩) ?_
    rintro ⟨rfl, rfl⟩
    exact hstart.not_ge range.start_le
  · split
    · next hstop =>
      refine iff_of_false (by rintro ⟨⟩) ?_
      rintro ⟨-, rfl⟩
      exact hstop.not_gt range.stop_lt
    · cases range
      simp only [Except.ok.injEq, PartitionRange.mk.injEq]
      exact ⟨fun h => ⟨h.1.symm, h.2.symm⟩, fun h => ⟨h.1.symm, h.2.symm⟩⟩

/-- A block is read from two numbers, or one. -/
theorem parsePartitions_eq_ok_iff {s : List Char} {range : PartitionRange} :
    parsePartitions s = .ok range ↔
      ∃ x y, (('-' ∉ x ∧ s = x ++ '-' :: y) ∨ ('-' ∉ s ∧ x = s ∧ y = s)) ∧
        Text.parseUint maxU64 (trim x) = some range.start ∧
        Text.parseUint maxU64 (trim y) = some range.stop := by
  simp only [← splitOnce_getD_eq_iff, ← parseU64_eq_ok_iff]
  unfold parsePartitions
  obtain ⟨start, stop⟩ := (splitOnce '-' s).getD (s, s)
  dsimp only
  constructor
  · intro h
    refine ⟨start, stop, rfl, ?_⟩
    cases hstart : parseU64 (trim start) with
    | error e =>
      rw [hstart] at h
      cases h
    | ok first =>
      cases hstop : parseU64 (trim stop) with
      | error e =>
        rw [hstart, hstop] at h
        cases h
      | ok last =>
        rw [hstart, hstop] at h
        obtain ⟨rfl, rfl⟩ := PartitionRange.check_eq_ok_iff.mp h
        exact ⟨rfl, rfl⟩
  · rintro ⟨x, y, heq, hstart, hstop⟩
    cases heq
    rw [hstart, hstop]
    exact PartitionRange.check_eq_ok_iff.mpr ⟨rfl, rfl⟩

/-- What is wrong with a block that is given by the texts of its ends: one of them is no number, or
they are not in order, or not inside the space. -/
inductive BadBounds (x y : List Char) : String → Prop
  | start (e : ParseIntError) : BadNumber (trim x) e → BadBounds x y ("bad start: " ++ e.display)
  | stop (start : ℕ) (e : ParseIntError) : Text.parseUint maxU64 (trim x) = some start →
      BadNumber (trim y) e → BadBounds x y ("bad end: " ++ e.display)
  | order (start stop : ℕ) : Text.parseUint maxU64 (trim x) = some start →
      Text.parseUint maxU64 (trim y) = some stop → stop < start →
      BadBounds x y ("start " ++ toString start ++ " beyond end " ++ toString stop)
  | outside (start stop : ℕ) : Text.parseUint maxU64 (trim x) = some start →
      Text.parseUint maxU64 (trim y) = some stop → start ≤ stop → partitionCount ≤ stop →
      BadBounds x y ("partition " ++ toString stop ++ " outside 0.." ++ toString partitionCount)

theorem PartitionRange.check_eq_error_iff {start stop : ℕ} {message : String} :
    check start stop = .error message ↔
      (stop < start ∧
        message = "start " ++ toString start ++ " beyond end " ++ toString stop) ∨
      (start ≤ stop ∧ partitionCount ≤ stop ∧
        message = "partition " ++ toString stop ++ " outside 0.." ++ toString partitionCount) := by
  unfold check
  by_cases hstart : stop < start
  · rw [dif_pos hstart]
    simp [hstart, hstart.not_ge, eq_comm]
  · rw [dif_neg hstart]
    by_cases hstop : partitionCount ≤ stop
    · rw [dif_pos hstop]
      simp [not_lt.mp hstart, hstop, eq_comm]
    · rw [dif_neg hstop]
      simp [hstart, hstop]

/-- A text is refused for what is wrong with its ends. -/
theorem parsePartitions_eq_error_iff {s : List Char} {message : String} :
    parsePartitions s = .error message ↔
      ∃ x y, (('-' ∉ x ∧ s = x ++ '-' :: y) ∨ ('-' ∉ s ∧ x = s ∧ y = s)) ∧
        BadBounds x y message := by
  simp only [← splitOnce_getD_eq_iff]
  unfold parsePartitions
  obtain ⟨x, y⟩ := (splitOnce '-' s).getD (s, s)
  dsimp only
  constructor
  · intro h
    refine ⟨x, y, rfl, ?_⟩
    cases hx : parseU64 (trim x) with
    | error e =>
      rw [hx] at h
      cases h
      exact .start e (parseU64_eq_error_iff.mp hx)
    | ok start =>
      have hstart := parseU64_eq_ok_iff.mp hx
      cases hy : parseU64 (trim y) with
      | error e =>
        rw [hx, hy] at h
        cases h
        exact .stop start e hstart (parseU64_eq_error_iff.mp hy)
      | ok stop =>
        rw [hx, hy] at h
        have hstop := parseU64_eq_ok_iff.mp hy
        obtain ⟨hlt, rfl⟩ | ⟨hle, hout, rfl⟩ := PartitionRange.check_eq_error_iff.mp h
        · exact .order start stop hstart hstop hlt
        · exact .outside start stop hstart hstop hle hout
  · rintro ⟨x', y', heq, hbad⟩
    cases heq
    cases hbad with
    | start e hx => rw [parseU64_eq_error_iff.mpr hx]
    | stop start e hx hy => rw [parseU64_eq_ok_iff.mpr hx, parseU64_eq_error_iff.mpr hy]
    | order start stop hx hy hlt =>
      rw [parseU64_eq_ok_iff.mpr hx, parseU64_eq_ok_iff.mpr hy]
      exact PartitionRange.check_eq_error_iff.mpr (Or.inl ⟨hlt, rfl⟩)
    | outside start stop hx hy hle hout =>
      rw [parseU64_eq_ok_iff.mpr hx, parseU64_eq_ok_iff.mpr hy]
      exact PartitionRange.check_eq_error_iff.mpr (Or.inr ⟨hle, hout, rfl⟩)

/-- **A block is accepted exactly if it is one**: a text is accepted for the numbers in it, before
and behind the first dash or the one that it is, if they are in order and inside the space, and
refused for what is wrong with them otherwise; and whatever numbers are printed, with a dash between
them and any blanks, the block is accepted or refused for what they are. -/
theorem parsePartitions_spec :
    (∀ s range, parsePartitions s = .ok range ↔
      ∃ x y, (('-' ∉ x ∧ s = x ++ '-' :: y) ∨ ('-' ∉ s ∧ x = s ∧ y = s)) ∧
        Text.parseUint maxU64 (trim x) = some range.start ∧
        Text.parseUint maxU64 (trim y) = some range.stop) ∧
    (∀ s message, parsePartitions s = .error message ↔
      ∃ x y, (('-' ∉ x ∧ s = x ++ '-' :: y) ∨ ('-' ∉ s ∧ x = s ∧ y = s)) ∧
        BadBounds x y message) ∧
    ∀ start stop, start ≤ maxU64 → stop ≤ maxU64 → ∀ a b c d : List Char,
      (∀ e ∈ a ++ b ++ c ++ d, isWhitespace e) →
      parsePartitions (a ++ Nat.toDigits 10 start ++ b ++ '-' :: (c ++ Nat.toDigits 10 stop ++ d))
          = PartitionRange.check start stop ∧
        parsePartitions (a ++ Nat.toDigits 10 start ++ b) = PartitionRange.check start start := by
  refine ⟨fun s range => parsePartitions_eq_ok_iff,
    fun s message => parsePartitions_eq_error_iff, ?_⟩
  intro start stop hstart hstop a b c d hblank
  simp only [List.forall_mem_append] at hblank
  obtain ⟨⟨⟨ha, hb⟩, hc⟩, hd⟩ := hblank
  have hdash : '-' ∉ a ++ Nat.toDigits 10 start ++ b := by
    have hblank : ¬ isWhitespace '-' := by decide
    simp only [List.mem_append, not_or]
    exact ⟨⟨fun h => hblank (ha _ h), fun h => (digit_facts_of_mem h).2 rfl⟩,
      fun h => hblank (hb _ h)⟩
  constructor
  · rw [parsePartitions, splitOnce_append hdash]
    simp only [Option.getD_some, parseU64_trim_toDigits hstart ha hb,
      parseU64_trim_toDigits hstop hc hd]
  · rw [parsePartitions, splitOnce, if_neg hdash]
    simp only [Option.getD_none, parseU64_trim_toDigits hstart ha hb]

example : (parsePartitions "0-255".toList).map (fun range => (range.start, range.stop))
    = .ok (0, 255) := by decide

/-! ### The pods of a fleet -/

/-- What a pod is told of its place in the fleet. -/
structure PodArgs where
  partitions : Option PartitionRange
  podName : Option (List Char)
  fleet : Option ℕ

/-- Why a pod has no block. -/
inductive OwnedError
  | unspecified
  | fleetSize (fleet : ℕ)
  | noOrdinal (name : List Char) (error : ParseIntError)
  | ordinalOutside (ordinal fleet : ℕ)
  deriving DecidableEq, Repr

/-- The text of an error, where names are printed with `quote`. -/
def OwnedError.display (quote : List Char → String) : OwnedError → String
  | unspecified => "provide --partitions, or --pod-name with --fleet"
  | fleetSize fleet =>
    "fleet size " ++ toString fleet ++ " outside 1..=" ++ toString partitionCount
  | noOrdinal name _ => "pod name " ++ quote name ++ " carries no trailing ordinal"
  | ordinalOutside ordinal fleet =>
    "ordinal " ++ toString ordinal ++ " outside fleet of " ++ toString fleet

/-- The piece of a name behind its last dash. -/
def trailingPiece (name : List Char) : List Char := name.rtakeWhile (· ≠ '-')

theorem chunk_facts {fleet : ℕ} (hfleet : 1 ≤ fleet ∧ fleet ≤ partitionCount) {ordinal : ℕ}
    (hordinal : ordinal < fleet) : 1 ≤ partitionCount / fleet ∧
      ordinal * (partitionCount / fleet) + partitionCount / fleet ≤ partitionCount := by
  refine ⟨Nat.div_pos hfleet.2 hfleet.1, ?_⟩
  calc ordinal * (partitionCount / fleet) + partitionCount / fleet
      = (ordinal + 1) * (partitionCount / fleet) := by rw [Nat.add_mul, Nat.one_mul]
    _ ≤ fleet * (partitionCount / fleet) := Nat.mul_le_mul_right _ hordinal
    _ ≤ partitionCount := Nat.mul_div_le _ _

/-- The block of an ordinal: all are of one length, but the last goes to the end. -/
def fleetSlice (fleet ordinal : ℕ) (hfleet : 1 ≤ fleet ∧ fleet ≤ partitionCount)
    (hordinal : ordinal < fleet) : PartitionRange where
  start := ordinal * (partitionCount / fleet)
  stop :=
    if ordinal = fleet - 1 then partitionCount - 1
    else (ordinal + 1) * (partitionCount / fleet) - 1
  start_le := by
    have hchunk := chunk_facts hfleet hordinal
    rw [Nat.add_mul, Nat.one_mul]
    split <;> omega
  stop_lt := by
    have hchunk := chunk_facts hfleet hordinal
    rw [Nat.add_mul, Nat.one_mul]
    split <;> omega

/-- The block of a pod: the one that it is told, or that of the ordinal in its name. -/
def ownedPartitions (args : PodArgs) : Except OwnedError PartitionRange :=
  match args.partitions with
  | some partitions => .ok partitions
  | none =>
    match args.podName, args.fleet with
    | some name, some fleet =>
      if hfleet : 1 ≤ fleet ∧ fleet ≤ partitionCount then
        match parseU64 (trailingPiece name) with
        | .error e => .error (.noOrdinal name e)
        | .ok ordinal =>
          if hordinal : ordinal < fleet then .ok (fleetSlice fleet ordinal hfleet hordinal)
          else .error (.ordinalOutside ordinal fleet)
      else .error (.fleetSize fleet)
    | _, _ => .error .unspecified

/-- The pod of a partition. -/
def podOf (fleet partition : ℕ) : ℕ := min (partition / (partitionCount / fleet)) (fleet - 1)

theorem podOf_lt {fleet : ℕ} (hfleet : 1 ≤ fleet) (partition : ℕ) : podOf fleet partition < fleet :=
  lt_of_le_of_lt (min_le_right _ _) (by omega)

/-- A pod's block holds the partitions of the pod. -/
theorem contains_fleetSlice_iff {fleet ordinal : ℕ} (hfleet : 1 ≤ fleet ∧ fleet ≤ partitionCount)
    (hordinal : ordinal < fleet) {partition : ℕ} :
    (fleetSlice fleet ordinal hfleet hordinal).Contains partition ↔
      partition < partitionCount ∧ podOf fleet partition = ordinal := by
  obtain ⟨hpos, hle⟩ := chunk_facts hfleet hordinal
  have hge : ∀ n, n ≤ partition / (partitionCount / fleet) ↔
      n * (partitionCount / fleet) ≤ partition := fun n => Nat.le_div_iff_mul_le hpos
  rw [PartitionRange.Contains, fleetSlice, podOf]
  dsimp only
  by_cases hlast : ordinal = fleet - 1
  · rw [if_pos hlast, ← hlast, min_eq_right_iff, hge]
    omega
  · -- below the last pod the block is that of the quotient
    have hquotient : min (partition / (partitionCount / fleet)) (fleet - 1) = ordinal ↔
        ordinal ≤ partition / (partitionCount / fleet) ∧
          ¬ ordinal + 1 ≤ partition / (partitionCount / fleet) := by omega
    rw [if_neg hlast, hquotient, hge, hge, Nat.add_mul, Nat.one_mul]
    omega

/-- The text behind the last dash of a name. -/
theorem trailingPiece_append (base : List Char) {piece : List Char} (hpiece : '-' ∉ piece) :
    trailingPiece (base ++ '-' :: piece) = piece := by
  have hne : ∀ d ∈ piece.reverse, decide (d ≠ '-') := fun d hd =>
    decide_eq_true (ne_of_mem_of_not_mem (List.mem_reverse.mp hd) hpiece)
  rw [trailingPiece, List.rtakeWhile, List.reverse_append, List.reverse_cons, List.append_assoc,
    List.takeWhile_append_of_pos hne, List.singleton_append,
    List.takeWhile_cons_of_neg (by simp), List.append_nil, List.reverse_reverse]

theorem ownedPartitions_eq_ok_iff {fleet : ℕ} (hfleet : 1 ≤ fleet ∧ fleet ≤ partitionCount)
    {name : List Char} {block : PartitionRange} :
    ownedPartitions ⟨none, some name, some fleet⟩ = .ok block ↔
      ∃ (ordinal : ℕ) (hordinal : ordinal < fleet), parseU64 (trailingPiece name) = .ok ordinal ∧
        block = fleetSlice fleet ordinal hfleet hordinal := by
  simp only [ownedPartitions, dif_pos hfleet]
  cases parseU64 (trailingPiece name) with
  | error e => simp
  | ok n =>
    simp only [Except.ok.injEq]
    constructor
    · intro h
      split at h
      · next hordinal =>
        cases h
        exact ⟨n, hordinal, rfl, rfl⟩
      · cases h
    · rintro ⟨ordinal, hordinal, rfl, rfl⟩
      rw [dif_pos hordinal]

/-- **The pods of a fleet divide the partitions.**  Given their number and names that end in their
ordinals, they take blocks that follow one another from the first partition to the last; a pod that
is given a block is one of them; so every partition is one pod's, and the subject of every vehicle
is consumed by one pod. -/
theorem fleet_partition {fleet : ℕ} (hfleet : 1 ≤ fleet ∧ fleet ≤ partitionCount)
    {names : ℕ → List Char}
    (hnames : ∀ ordinal < fleet, ∃ base, names ordinal = base ++ '-' :: Nat.toDigits 10 ordinal) :
    ∃ blocks : ℕ → PartitionRange,
      (∀ ordinal < fleet,
        ownedPartitions ⟨none, some (names ordinal), some fleet⟩ = .ok (blocks ordinal)) ∧
      (∀ name block, ownedPartitions ⟨none, some name, some fleet⟩ = .ok block →
        ∃ ordinal < fleet, parseU64 (trailingPiece name) = .ok ordinal ∧ block = blocks ordinal) ∧
      (blocks 0).start = 0 ∧ (blocks (fleet - 1)).stop = partitionCount - 1 ∧
      (∀ ordinal, ordinal + 1 < fleet →
        (blocks (ordinal + 1)).start = (blocks ordinal).stop + 1) ∧
      (∀ partition < partitionCount,
        ∃! ordinal, ordinal < fleet ∧ (blocks ordinal).Contains partition) ∧
      ∀ vehicle : VehicleId, ∃! ordinal, ordinal < fleet ∧ ∃ partition,
        (blocks ordinal).Contains partition ∧
          (partitionConsumer partition).filterSubject = rawSubject vehicle.partition := by
  have hlt : ∀ ordinal, min ordinal (fleet - 1) < fleet := fun ordinal => by omega
  let blocks : ℕ → PartitionRange := fun ordinal => fleetSlice fleet _ hfleet (hlt ordinal)
  have hblocks : ∀ ordinal (hordinal : ordinal < fleet),
      blocks ordinal = fleetSlice fleet ordinal hfleet hordinal := by
    intro ordinal hordinal
    have hmin : min ordinal (fleet - 1) = ordinal := by omega
    simp only [blocks, hmin]
  have hcontains : ∀ ordinal < fleet, ∀ partition, (blocks ordinal).Contains partition ↔
      partition < partitionCount ∧ podOf fleet partition = ordinal := by
    intro ordinal hordinal partition
    rw [hblocks ordinal hordinal, contains_fleetSlice_iff]
  have hone : ∀ partition < partitionCount,
      ∃! ordinal, ordinal < fleet ∧ (blocks ordinal).Contains partition := by
    intro partition hpartition
    refine ⟨podOf fleet partition, ⟨podOf_lt hfleet.1 partition, ?_⟩, ?_⟩
    · exact (hcontains _ (podOf_lt hfleet.1 partition) _).mpr ⟨hpartition, rfl⟩
    · rintro ordinal ⟨hordinal, h⟩
      exact ((hcontains ordinal hordinal partition).mp h).2.symm
  refine ⟨blocks, fun ordinal hordinal => ?_, fun name block h => ?_, ?_, ?_,
    fun ordinal hordinal => ?_, hone, fun vehicle => ?_⟩
  · obtain ⟨base, hbase⟩ := hnames ordinal hordinal
    have hdash : '-' ∉ Nat.toDigits 10 ordinal := fun h => (digit_facts_of_mem h).2 rfl
    refine (ownedPartitions_eq_ok_iff hfleet).mpr ⟨ordinal, hordinal, ?_, hblocks ordinal hordinal⟩
    rw [hbase, trailingPiece_append base hdash, parseU64_eq_ok_iff]
    have hsmall : partitionCount ≤ maxU64 := by decide
    exact Text.parseUint_toDigits (hordinal.le.trans (hfleet.2.trans hsmall))
  · obtain ⟨ordinal, hordinal, hparse, rfl⟩ := (ownedPartitions_eq_ok_iff hfleet).mp h
    exact ⟨ordinal, hordinal, hparse, (hblocks ordinal hordinal).symm⟩
  · rw [hblocks 0 hfleet.1]
    exact Nat.zero_mul _
  · rw [hblocks (fleet - 1) (by omega)]
    exact if_pos rfl
  · have hchunk := (chunk_facts hfleet hordinal).1
    have hstop : (fleetSlice fleet ordinal hfleet (by omega)).stop
        = (ordinal + 1) * (partitionCount / fleet) - 1 := if_neg (by omega)
    rw [hblocks _ hordinal, hblocks ordinal (by omega), hstop, Nat.add_mul, Nat.one_mul]
    change (ordinal + 1) * (partitionCount / fleet) = _
    rw [Nat.add_mul, Nat.one_mul]
    omega
  · obtain ⟨ordinal, hordinal, hunique⟩ := hone vehicle.partition vehicle.partition_lt
    refine ⟨ordinal, ⟨hordinal.1, vehicle.partition, hordinal.2, rfl⟩, ?_⟩
    rintro other ⟨hother, partition, hpartition, hsubject⟩
    rw [← rawSubject_injective hsubject] at hunique
    exact hunique other ⟨hother, hpartition⟩

/-- A fleet of three. -/
theorem fleet_partition_three : ∃ blocks : ℕ → PartitionRange,
    ownedPartitions ⟨none, some "orchestrator-2".toList, some 3⟩ = .ok (blocks 2) ∧
      (blocks 2).stop = 1023 := by
  have hnames : ∀ ordinal < 3, ∃ base,
      "orchestrator".toList ++ '-' :: Nat.toDigits 10 ordinal
        = base ++ '-' :: Nat.toDigits 10 ordinal := fun ordinal _ => ⟨_, rfl⟩
  obtain ⟨blocks, howned, -, -, hstop, -⟩ := fleet_partition (by decide) hnames
  exact ⟨blocks, howned 2 (by decide), hstop⟩

end Routers
