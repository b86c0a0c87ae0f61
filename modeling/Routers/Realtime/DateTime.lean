import Mathlib.Data.Prod.Lex
import Mathlib.Order.Lattice

/-!
# Times

A time is a count of seconds since the Unix epoch and the nanoseconds into the second, which
go past a whole second in a leap second.  It is compared by its seconds first.  On the wire
between processes a time is a count of microseconds: what is finer is cut off, and a leap
second is taken into the minute after.

## Main definitions

* `DateTime`, `DateTime.fromTimestamp` — the times there are.
* `DateTime.timestampMicros`, `DateTime.fromMicros` — the form that is stored.
* `DateTime.WholeMicros` — a whole number of microseconds since the epoch.
* `DateTime.Kept` — nothing is cut off a time.
* `DateTime.Readable` — there is a time that the stored form stands for.
* `DateTime.durationSince` — a difference of times, in nanoseconds.

## Main results

* `DateTime.le_of_fromMicros` — a time that is not cut off comes back no earlier.
* `DateTime.lt_of_fromMicros` — a time that is cut off comes back earlier.

## References

`src/libs/routers_realtime/src/event.rs`.
-/

namespace Routers

/-- The first second there is, of the year -262143. -/
def minSecs : ℤ := -8334601228800

/-- The last second there is, of the year 262142. -/
def maxSecs : ℤ := 8210266876799

/-- A time: nanoseconds from a whole second on belong to a leap second, at the end of a minute. -/
structure DateTime where
  secs : ℤ
  nanos : ℕ
  inRange : minSecs ≤ secs ∧ secs ≤ maxSecs
  subsec : nanos < 1000000000 ∨ (nanos < 2000000000 ∧ secs % 60 = 59)
  deriving DecidableEq

namespace DateTime

@[ext]
theorem ext {a b : DateTime} (hsecs : a.secs = b.secs) (hnanos : a.nanos = b.nanos) : a = b := by
  cases a
  cases b
  cases hsecs
  cases hnanos
  rfl

/-! ### Order -/

/-- The seconds and the nanoseconds, in lexicographic order. -/
def key (t : DateTime) : ℤ ×ₗ ℕ := toLex (t.secs, t.nanos)

theorem key_injective : Function.Injective key := by
  intro a b h
  have hpair : (a.secs, a.nanos) = (b.secs, b.nanos) := toLex.injective h
  exact ext (congrArg Prod.fst hpair) (congrArg Prod.snd hpair)

instance : LinearOrder DateTime := LinearOrder.lift' key key_injective

theorem le_iff {a b : DateTime} :
    a ≤ b ↔ a.secs < b.secs ∨ (a.secs = b.secs ∧ a.nanos ≤ b.nanos) :=
  Prod.Lex.le_iff

theorem lt_iff {a b : DateTime} :
    a < b ↔ a.secs < b.secs ∨ (a.secs = b.secs ∧ a.nanos < b.nanos) :=
  Prod.Lex.lt_iff

/-! ### Construction -/

/-- The time at some seconds since the epoch and nanoseconds into the second, if there is one. -/
def fromTimestamp (secs : ℤ) (nsecs : ℕ) : Option DateTime :=
  if h : (minSecs ≤ secs ∧ secs ≤ maxSecs) ∧
      (nsecs < 1000000000 ∨ (nsecs < 2000000000 ∧ secs % 60 = 59)) then
    some ⟨secs, nsecs, h.1, h.2⟩
  else none

/-- The Unix epoch. -/
def epoch : DateTime := ⟨0, 0, by decide, by decide⟩

theorem fromTimestamp_eq_some_iff {secs : ℤ} {nsecs : ℕ} {t : DateTime} :
    fromTimestamp secs nsecs = some t ↔ t.secs = secs ∧ t.nanos = nsecs := by
  unfold fromTimestamp
  split
  · rw [Option.some_inj]
    constructor
    · rintro rfl
      exact ⟨rfl, rfl⟩
    · rintro ⟨rfl, rfl⟩
      rfl
  · rename_i h
    constructor
    · intro hnone
      cases hnone
    · rintro ⟨rfl, rfl⟩
      exact absurd ⟨t.inRange, t.subsec⟩ h

/-! ### Microseconds -/

/-- The microseconds since the epoch, rounded down. -/
def timestampMicros (t : DateTime) : ℤ := t.secs * 1000000 + (t.nanos / 1000 : ℕ)

/-- The time at some microseconds since the epoch, if there is one. -/
def fromMicros (micros : ℤ) : Option DateTime :=
  fromTimestamp (micros / 1000000) ((micros % 1000000).toNat * 1000)

/-- A whole number of microseconds since the epoch. -/
def WholeMicros (t : DateTime) : Prop := ∃ micros, fromMicros micros = some t

/-- What comes back of a time that is no leap second is the time with what is finer than a
microsecond cut off. -/
theorem fromMicros_of_lt {t u : DateTime} (h : t.nanos < 1000000000)
    (hu : fromMicros t.timestampMicros = some u) :
    u.secs = t.secs ∧ u.nanos = t.nanos / 1000 * 1000 := by
  rw [fromMicros, fromTimestamp_eq_some_iff, timestampMicros] at hu
  omega

/-- What comes back of a leap second is in the minute after. -/
theorem fromMicros_of_le {t u : DateTime} (h : 1000000000 ≤ t.nanos)
    (hu : fromMicros t.timestampMicros = some u) : u.secs = t.secs + 1 := by
  have hsub := t.subsec
  rw [fromMicros, fromTimestamp_eq_some_iff, timestampMicros] at hu
  omega

/-- A time that is no leap second comes back. -/
theorem exists_fromMicros {t : DateTime} (h : t.nanos < 1000000000) :
    ∃ u, fromMicros t.timestampMicros = some u := by
  refine ⟨⟨t.secs, t.nanos / 1000 * 1000, t.inRange, Or.inl (by omega)⟩, ?_⟩
  rw [fromMicros, fromTimestamp_eq_some_iff, timestampMicros]
  dsimp only
  omega

theorem wholeMicros_iff {t : DateTime} :
    t.WholeMicros ↔ t.nanos < 1000000000 ∧ t.nanos % 1000 = 0 := by
  constructor
  · rintro ⟨micros, h⟩
    rw [fromMicros, fromTimestamp_eq_some_iff] at h
    omega
  · rintro ⟨hlt, hmod⟩
    refine ⟨t.timestampMicros, ?_⟩
    rw [fromMicros, fromTimestamp_eq_some_iff, timestampMicros]
    omega

/-- A time comes back at all: it is not in the leap second behind the last second there is. -/
def Readable (t : DateTime) : Prop := t.secs < maxSecs ∨ t.nanos < 1000000000

instance (t : DateTime) : Decidable t.Readable := inferInstanceAs (Decidable (_ ∨ _))

/-- **A time comes back exactly if there is a time that its stored form stands for.** -/
theorem readable_iff {t : DateTime} :
    t.Readable ↔ ∃ u, fromMicros t.timestampMicros = some u := by
  constructor
  · intro h
    obtain hlt | hge := Nat.lt_or_ge t.nanos 1000000000
    · exact exists_fromMicros hlt
    · -- a leap second is taken into the minute after
      have hsub := t.subsec
      have hrange := t.inRange
      have hlast : t.secs < maxSecs ∨ t.nanos < 1000000000 := h
      refine ⟨⟨t.secs + 1, (t.nanos - 1000000000) / 1000 * 1000, by omega, Or.inl (by omega)⟩, ?_⟩
      rw [fromMicros, fromTimestamp_eq_some_iff, timestampMicros]
      dsimp only
      omega
  · rintro ⟨u, hu⟩
    by_contra h
    have hlast : ¬ (t.secs < maxSecs ∨ t.nanos < 1000000000) := h
    have hsecs := fromMicros_of_le (by omega) hu
    have hrange := u.inRange
    omega

/-- A time that does not come back is later than any that does. -/
theorem lt_of_not_readable {t u : DateTime} (h : ¬ t.Readable) {micros : ℤ}
    (hu : fromMicros micros = some u) : u < t := by
  have hlast : ¬ (t.secs < maxSecs ∨ t.nanos < 1000000000) := h
  have hrange := u.inRange
  rw [fromMicros, fromTimestamp_eq_some_iff] at hu
  rw [lt_iff]
  omega

/-- A whole number of microseconds comes back as it was. -/
theorem WholeMicros.fromMicros_eq {t : DateTime} (h : t.WholeMicros) :
    fromMicros t.timestampMicros = some t := by
  obtain ⟨hlt, hmod⟩ := wholeMicros_iff.mp h
  obtain ⟨u, hu⟩ := exists_fromMicros hlt
  obtain ⟨hsecs, hnanos⟩ := fromMicros_of_lt hlt hu
  rw [hu]
  exact congrArg some (ext hsecs (by omega))

/-- A time is not cut off: it has no fraction of a microsecond, or is in a leap second. -/
def Kept (t : DateTime) : Prop := t.nanos % 1000 = 0 ∨ 1000000000 ≤ t.nanos

instance (t : DateTime) : Decidable t.Kept := inferInstanceAs (Decidable (_ ∨ _))

theorem WholeMicros.kept {t : DateTime} (h : t.WholeMicros) : t.Kept :=
  Or.inl (wholeMicros_iff.mp h).2

theorem WholeMicros.readable {t : DateTime} (h : t.WholeMicros) : t.Readable :=
  Or.inr (wholeMicros_iff.mp h).1

/-- **What is no earlier than a time that is not cut off comes back no earlier.** -/
theorem le_of_fromMicros {t u v : DateTime} (h : t.Kept) (hle : t ≤ u)
    (hv : fromMicros u.timestampMicros = some v) : t ≤ v := by
  rw [le_iff] at hle ⊢
  by_cases hleap : 1000000000 ≤ u.nanos
  · have hsecs := fromMicros_of_le hleap hv
    omega
  · obtain ⟨hsecs, hnanos⟩ := fromMicros_of_lt (not_le.mp hleap) hv
    have hkept : t.nanos % 1000 = 0 ∨ 1000000000 ≤ t.nanos := h
    omega

/-- **A time that is cut off comes back earlier.** -/
theorem lt_of_fromMicros {t u : DateTime} (h : ¬ t.Kept)
    (hu : fromMicros t.timestampMicros = some u) : u < t := by
  have hcut : ¬ (t.nanos % 1000 = 0 ∨ 1000000000 ≤ t.nanos) := h
  obtain ⟨hsecs, hnanos⟩ := fromMicros_of_lt (by omega) hu
  rw [lt_iff]
  omega

/-! ### Durations -/

/-- The nanoseconds from one time to another; a leap second between them is counted if it is of the
same day. -/
def durationSince (t u : DateTime) : ℤ :=
  let days := t.secs / 86400 - u.secs / 86400
  let secs := t.secs % 86400 - u.secs % 86400
  let leap :=
    if u.secs % 86400 < t.secs % 86400 ∧ 1000000000 ≤ u.nanos then 1
    else if t.secs % 86400 < u.secs % 86400 ∧ 1000000000 ≤ t.nanos then -1
    else 0
  (days * 86400 + secs + leap) * 1000000000 + ((t.nanos : ℤ) - u.nanos)

end DateTime

end Routers
