import Mathlib.Data.Nat.Notation
import Mathlib.Order.Basic
import Mathlib.Tactic.SplitIfs

/-!
# Opening hours

Opening hours are a list of rules.  A rule names weekdays and times of the day, or says that
the place is closed.  A range of times may run past midnight: then its end belongs to the day
after.  A range of weekdays may run past Sunday.

## Main definitions

* `Weekday`, `Time`, `OpeningRule`, `OpeningHours` — the rules.
* `OpeningHours.isOpenAt` — the test as the program makes it.
* `OpeningRule.Opens` — the moments a range of a rule stands for.
* `OpeningRule.ReadRight` — the test of one range at a moment is right.

## Main results

* `OpeningHours.isOpenAt_iff` — the test, range by range.
* `OpeningRule.found_iff_opens_iff` — a single range is read right exactly where `ReadRight` says.
* `OpeningRule.forall_readRight_iff` — the ranges that are read right at every moment.
* `OpeningHours.isOpenAt_iff_opens` — **where ranges are read right, the test tells what the rules
  say.**
* `OpeningHours.readRight_or_cancelled` — where else it does, two mistakes cancel.

## References

`src/libs/routers_codec/src/osm/parsers/primitives/opening_hours.rs`.
-/

namespace Routers

/-- The days of the week. -/
inductive Weekday
  | monday | tuesday | wednesday | thursday | friday | saturday | sunday
  deriving DecidableEq, Repr, Inhabited

namespace Weekday

/-- The place of a day in the week. -/
def number : Weekday → ℕ
  | monday => 0
  | tuesday => 1
  | wednesday => 2
  | thursday => 3
  | friday => 4
  | saturday => 5
  | sunday => 6

/-- The day before. -/
def prev : Weekday → Weekday
  | monday => sunday
  | tuesday => monday
  | wednesday => tuesday
  | thursday => wednesday
  | friday => thursday
  | saturday => friday
  | sunday => saturday

/-- How many days after another. -/
def daysAfter (start day : Weekday) : ℕ := (day.number + 7 - start.number) % 7

end Weekday

/-- A time of the day.  Both parts are bytes, so that the minutes of the day fit 16 bits. -/
structure Time where
  hour : ℕ
  minute : ℕ
  deriving DecidableEq, Repr, Inhabited

namespace Time

/-- Any time up to the end of hour 24, or an error. -/
def new (hour minute : ℕ) : Option Time :=
  if hour > 24 ∨ minute > 59 then none else some ⟨hour, minute⟩

/-- The minutes since midnight. -/
def minutes (time : Time) : ℕ := time.hour * 60 + time.minute

end Time

/-- A range of times of the day; one that ends before it starts runs past midnight. -/
structure TimeRange where
  start : Time
  stop : Time
  deriving DecidableEq, Repr, Inhabited

/-- A moment of the week. -/
structure TimeOfWeek where
  time : Time
  weekday : Weekday
  deriving DecidableEq, Repr, Inhabited

/-- The weekdays of a rule: one, from one to another, or several. -/
inductive WeekdayRange
  | single (day : Weekday)
  | range (start stop : Weekday)
  | list (days : List Weekday)
  deriving DecidableEq, Repr, Inhabited

/-- A rule: on these weekdays, or on all, a place is open at these times, or closed. -/
structure OpeningRule where
  weekdays : Option WeekdayRange
  times : List TimeRange
  closed : Bool
  deriving DecidableEq, Repr, Inhabited

/-- Opening hours are rules; any of them may open the place. -/
structure OpeningHours where
  rules : List OpeningRule
  deriving DecidableEq, Repr, Inhabited

/-! ### The test -/

namespace OpeningHours

/-- Whether a time lies in a range, on whichever day. -/
def timeInRange (time start stop : Time) : Bool :=
  if start.minutes ≤ stop.minutes then
    decide (time.minutes ≥ start.minutes) && decide (time.minutes ≤ stop.minutes)
  else
    -- overnight
    decide (time.minutes ≥ start.minutes) || decide (time.minutes ≤ stop.minutes)

/-- Whether a rule is read as one for a weekday; one from a day to another always is. -/
def appliesToWeekday (weekdays : Option WeekdayRange) (weekday : Weekday) : Bool :=
  match weekdays with
  | none => true
  | some (.single day) => decide (day = weekday)
  | some (.list days) => days.contains weekday
  | some (.range _ _) => true

/-- Whether some rule that is not closed is for the day and has a range with the time. -/
def isOpenAt (hours : OpeningHours) (moment : TimeOfWeek) : Bool :=
  hours.rules.any fun rule =>
    !rule.closed && appliesToWeekday rule.weekdays moment.weekday &&
      rule.times.any fun range => timeInRange moment.time range.start range.stop

end OpeningHours

/-! ### What the rules say -/

/-- The days that a rule names. -/
def WeekdayRange.Contains : WeekdayRange → Weekday → Prop
  | single d, day => d = day
  | range start stop, day => start.daysAfter day ≤ start.daysAfter stop
  | list days, day => day ∈ days

namespace TimeRange

variable (range : TimeRange) (time : Time)

/-- The range runs past midnight. -/
def Overnight : Prop := range.stop.minutes < range.start.minutes

/-- The time is in the range, on the day on which the range starts. -/
def FromStart : Prop :=
  range.start.minutes ≤ time.minutes ∧ (range.Overnight ∨ time.minutes ≤ range.stop.minutes)

/-- The time is in the range, on the day after the one on which the range starts. -/
def PastMidnight : Prop := range.Overnight ∧ time.minutes ≤ range.stop.minutes

variable {range time}

theorem timeInRange_iff :
    OpeningHours.timeInRange time range.start range.stop ↔
      range.FromStart time ∨ range.PastMidnight time := by
  unfold OpeningHours.timeInRange FromStart PastMidnight Overnight
  split_ifs with h <;> simp <;> omega

theorem PastMidnight.not_fromStart (h : range.PastMidnight time) : ¬ range.FromStart time := by
  unfold PastMidnight Overnight at h
  unfold FromStart
  omega

end TimeRange

namespace OpeningRule

variable (rule : OpeningRule) (range : TimeRange) (moment : TimeOfWeek)

/-- The days of a rule; all of them if it names none. -/
def Contains (day : Weekday) : Prop := ∀ weekdays ∈ rule.weekdays, weekdays.Contains day

/-- The rule names its days by the first and the last. -/
def Spans : Prop := ∃ start stop, rule.weekdays = some (.range start stop)

/-- **A range of a rule contains the moment**: from its start, on a day of the rule, or, if it
runs past midnight, up to its end on the day after. -/
def Opens : Prop :=
  (rule.Contains moment.weekday ∧ range.FromStart moment.time) ∨
    (rule.Contains moment.weekday.prev ∧ range.PastMidnight moment.time)

/-- The test of the range is right at the moment: from the range's start, a rule that spans days
contains the day; and past midnight, the rule contains the day before exactly if it spans days or
contains the day itself. -/
structure ReadRight : Prop where
  fromStart : range.FromStart moment.time → rule.Spans → rule.Contains moment.weekday
  pastMidnight : range.PastMidnight moment.time →
    (rule.Spans ∨ rule.Contains moment.weekday ↔ rule.Contains moment.weekday.prev)

/-- The rule contains every day; or it does not span days, and the range ends on the day on which
it starts, or the rule contains no day at all. -/
def Steady : Prop :=
  (∀ day, rule.Contains day) ∨
    ¬ rule.Spans ∧ (¬ range.Overnight ∨ ∀ day, ¬ rule.Contains day)

/-- The test finds the range. -/
def Found : Prop :=
  (rule.Spans ∨ rule.Contains moment.weekday) ∧
    (range.FromStart moment.time ∨ range.PastMidnight moment.time)

variable {rule range moment}

theorem appliesToWeekday_iff {day : Weekday} :
    OpeningHours.appliesToWeekday rule.weekdays day ↔ rule.Spans ∨ rule.Contains day := by
  unfold OpeningHours.appliesToWeekday Spans Contains
  cases rule.weekdays with
  | none => simp
  | some weekdays => cases weekdays <;> simp [WeekdayRange.Contains]

/-- **A single range is read right** exactly where `ReadRight` says: the time is in it from its
start, or past midnight, but never both. -/
theorem found_iff_opens_iff :
    (rule.Found range moment ↔ rule.Opens range moment) ↔ rule.ReadRight range moment := by
  unfold Found Opens
  constructor
  · intro h
    constructor
    · intro hstart hspans
      have hpast : ¬ range.PastMidnight moment.time := fun hpast => hpast.not_fromStart hstart
      obtain ⟨hday, -⟩ | ⟨-, hpast'⟩ := h.mp ⟨Or.inl hspans, Or.inl hstart⟩
      · exact hday
      · exact absurd hpast' hpast
    · intro hpast
      have hstart := hpast.not_fromStart
      simpa only [hpast, hstart, or_true, and_true, and_false, false_or] using h
  · rintro ⟨hfrom, hmorning⟩
    by_cases hpast : range.PastMidnight moment.time
    · have hstart := hpast.not_fromStart
      simpa only [hpast, hstart, or_true, and_true, and_false, false_or] using hmorning hpast
    · by_cases hstart : range.FromStart moment.time
      · simp only [hpast, hstart, or_false, and_true, and_false]
        exact ⟨fun h => h.elim (hfrom hstart) id, Or.inr⟩
      · simp only [hpast, hstart, or_false, and_false]

/-- The days that a rule contains are all days or none if with every day it contains the next. -/
theorem contains_all_or_none (h : ∀ day, rule.Contains day ↔ rule.Contains day.prev) :
    (∀ day, rule.Contains day) ∨ ∀ day, ¬ rule.Contains day := by
  have hmonday : ∀ day, rule.Contains day ↔ rule.Contains .monday := by
    have htuesday : rule.Contains .tuesday ↔ rule.Contains .monday := h .tuesday
    have hwednesday := (h .wednesday).trans htuesday
    have hthursday := (h .thursday).trans hwednesday
    have hfriday := (h .friday).trans hthursday
    have hsaturday := (h .saturday).trans hfriday
    have hsunday := (h .sunday).trans hsaturday
    intro day
    cases day with
    | monday => exact Iff.rfl
    | tuesday => exact htuesday
    | wednesday => exact hwednesday
    | thursday => exact hthursday
    | friday => exact hfriday
    | saturday => exact hsaturday
    | sunday => exact hsunday
  by_cases hcontains : rule.Contains .monday
  · exact Or.inl fun day => (hmonday day).mpr hcontains
  · exact Or.inr fun day => fun hday => hcontains ((hmonday day).mp hday)

/-- **The ranges that are read right at every moment.** -/
theorem forall_readRight_iff :
    (∀ moment, rule.ReadRight range moment) ↔ rule.Steady range := by
  constructor
  · intro h
    by_cases hspans : rule.Spans
    · -- at its start, on whichever day
      have hstart : range.FromStart range.start := by
        unfold TimeRange.FromStart TimeRange.Overnight
        omega
      exact Or.inl fun day => (h ⟨range.start, day⟩).fromStart hstart hspans
    by_cases hnight : range.Overnight
    · -- at midnight, on whichever day
      have hpast : range.PastMidnight ⟨0, 0⟩ := ⟨hnight, Nat.zero_le _⟩
      have hall : ∀ day, rule.Contains day ↔ rule.Contains day.prev := fun day => by
        simpa only [hspans, false_or] using (h ⟨⟨0, 0⟩, day⟩).pastMidnight hpast
      rcases contains_all_or_none hall with hall | hnone
      · exact Or.inl hall
      · exact Or.inr ⟨hspans, Or.inr hnone⟩
    · exact Or.inr ⟨hspans, Or.inl hnight⟩
  · rintro (hall | ⟨hspans, hnight | hnone⟩) moment
    · exact ⟨fun _ _ => hall _, fun _ => iff_of_true (Or.inr (hall _)) (hall _)⟩
    · exact ⟨fun _ h => absurd h hspans, fun hpast => absurd hpast.1 hnight⟩
    · exact ⟨fun _ h => absurd h hspans,
        fun _ => iff_of_false (fun h => h.elim hspans (hnone _)) (hnone _)⟩

end OpeningRule

namespace OpeningHours

variable (hours : OpeningHours) (moment : TimeOfWeek)

/-- Some range of a rule that is not closed. -/
def SomeRange (P : OpeningRule → TimeRange → Prop) : Prop :=
  ∃ rule ∈ hours.rules, rule.closed = false ∧ ∃ range ∈ rule.times, P rule range

/-- Every range of a rule that is not closed. -/
def EveryRange (P : OpeningRule → TimeRange → Prop) : Prop :=
  ∀ rule ∈ hours.rules, rule.closed = false → ∀ range ∈ rule.times, P rule range

/-- The test, range by range. -/
theorem isOpenAt_iff : hours.isOpenAt moment ↔
    hours.SomeRange fun rule range => rule.Found range moment := by
  unfold isOpenAt SomeRange OpeningRule.Found
  simp only [List.any_eq_true, Bool.and_eq_true, Bool.not_eq_true',
    OpeningRule.appliesToWeekday_iff, TimeRange.timeInRange_iff, and_assoc]
  refine exists_congr fun rule => and_congr_right fun _ => and_congr_right fun _ => ?_
  constructor
  · rintro ⟨hday, range, hrange, htime⟩
    exact ⟨range, hrange, hday, htime⟩
  · rintro ⟨range, hrange, hday, htime⟩
    exact ⟨hday, range, hrange, htime⟩

/-- Where all ranges are read right, the test tells what the rules say. -/
theorem isOpenAt_iff_of_readRight
    (h : hours.EveryRange fun rule range => rule.ReadRight range moment) :
    hours.isOpenAt moment ↔ hours.SomeRange fun rule range => rule.Opens range moment := by
  rw [isOpenAt_iff]
  exact exists_congr fun rule => and_congr_right fun hrule => and_congr_right fun hopen =>
    exists_congr fun range => and_congr_right fun hrange =>
      OpeningRule.found_iff_opens_iff.mpr (h rule hrule hopen range hrange)

/-- **Hours without spans of days and without nights**, or with these for every day alone, are
read right at every moment. -/
theorem isOpenAt_iff_of_steady (h : hours.EveryRange OpeningRule.Steady) :
    hours.isOpenAt moment ↔ hours.SomeRange fun rule range => rule.Opens range moment :=
  hours.isOpenAt_iff_of_readRight moment fun rule hrule hopen range hrange =>
    OpeningRule.forall_readRight_iff.mpr (h rule hrule hopen range hrange) moment

/-- **Where some range that contains the moment is read right, or all are, the test tells what
the rules say.** -/
theorem isOpenAt_iff_opens
    (h : (hours.SomeRange fun rule range =>
        rule.Opens range moment ∧ rule.ReadRight range moment) ∨
      hours.EveryRange fun rule range => rule.ReadRight range moment) :
    hours.isOpenAt moment ↔ hours.SomeRange fun rule range => rule.Opens range moment := by
  rcases h with ⟨rule, hrule, hopen, range, hrange, hopens, hright⟩ | hright
  · have hfound := (OpeningRule.found_iff_opens_iff.mpr hright).mpr hopens
    rw [isOpenAt_iff]
    exact iff_of_true ⟨rule, hrule, hopen, range, hrange, hfound⟩
      ⟨rule, hrule, hopen, range, hrange, hopens⟩
  · exact hours.isOpenAt_iff_of_readRight moment hright

/-- From Monday to Friday from nine to five, and all Friday and Saturday night. -/
def weekdays : OpeningHours :=
  ⟨[⟨some (.range .monday .friday), [⟨⟨9, 0⟩, ⟨17, 0⟩⟩], false⟩,
    ⟨some (.list [.friday, .saturday]), [⟨⟨22, 0⟩, ⟨4, 0⟩⟩], false⟩,
    ⟨none, [⟨⟨0, 0⟩, ⟨24, 0⟩⟩], true⟩]⟩

/-- On a Saturday at one in the morning, the night that began on Friday is still on. -/
theorem isOpenAt_iff_opens_weekdays :
    weekdays.isOpenAt ⟨⟨1, 0⟩, .saturday⟩ ↔
      weekdays.SomeRange fun rule range => rule.Opens range ⟨⟨1, 0⟩, .saturday⟩ := by
  refine isOpenAt_iff_opens weekdays ⟨⟨1, 0⟩, .saturday⟩ (Or.inr ?_)
  intro rule hrule hopen range hrange
  simp only [weekdays, List.mem_cons, List.not_mem_nil, or_false] at hrule
  rcases hrule with rfl | rfl | rfl
  · obtain rfl := List.mem_singleton.mp hrange
    constructor <;>
      simp [TimeRange.FromStart, TimeRange.PastMidnight, TimeRange.Overnight, Time.minutes]
  · obtain rfl := List.mem_singleton.mp hrange
    constructor <;>
      simp [OpeningRule.Spans, OpeningRule.Contains, WeekdayRange.Contains, Weekday.prev]
  · exact absurd hopen (by decide)

/-- **Where the test tells what the rules say**, it is so read, or two mistakes cancel: one range
that does not contain the moment is found, and another that does is not. -/
theorem readRight_or_cancelled
    (h : hours.isOpenAt moment ↔ hours.SomeRange fun rule range => rule.Opens range moment) :
    (hours.SomeRange fun rule range => rule.Opens range moment ∧ rule.ReadRight range moment) ∨
      (hours.EveryRange fun rule range => rule.ReadRight range moment) ∨
      (hours.SomeRange fun rule range => rule.Found range moment ∧ ¬ rule.Opens range moment) ∧
        hours.SomeRange fun rule range => rule.Opens range moment ∧ ¬ rule.Found range moment := by
  rw [isOpenAt_iff] at h
  by_cases hfound : hours.SomeRange fun rule range => rule.Found range moment
  · obtain ⟨rule, hrule, hopen, range, hrange, hopens⟩ := h.mp hfound
    by_cases hright : rule.Found range moment
    · exact Or.inl ⟨rule, hrule, hopen, range, hrange, hopens,
        OpeningRule.found_iff_opens_iff.mp (iff_of_true hright hopens)⟩
    obtain ⟨rule', hrule', hopen', range', hrange', hfound'⟩ := hfound
    by_cases hopens' : rule'.Opens range' moment
    · exact Or.inl ⟨rule', hrule', hopen', range', hrange', hopens',
        OpeningRule.found_iff_opens_iff.mp (iff_of_true hfound' hopens')⟩
    · exact Or.inr (Or.inr ⟨⟨rule', hrule', hopen', range', hrange', hfound', hopens'⟩,
        rule, hrule, hopen, range, hrange, hopens, hright⟩)
  · refine Or.inr (Or.inl fun rule hrule hopen range hrange => ?_)
    refine OpeningRule.found_iff_opens_iff.mp (iff_of_false ?_ ?_)
    · exact fun hmem => hfound ⟨rule, hrule, hopen, range, hrange, hmem⟩
    · exact fun hmem => hfound (h.mpr ⟨rule, hrule, hopen, range, hrange, hmem⟩)

/-- Weekends from nine to five, and Monday nights. -/
def weekends : OpeningHours :=
  ⟨[⟨some (.range .saturday .sunday), [⟨⟨9, 0⟩, ⟨17, 0⟩⟩], false⟩]⟩

/-- From Monday at ten in the evening to two in the morning. -/
def mondayNights : OpeningHours :=
  ⟨[⟨some (.single .monday), [⟨⟨22, 0⟩, ⟨2, 0⟩⟩], false⟩]⟩

/-- Open on a Wednesday at noon, and closed on a Tuesday at one in the morning. -/
theorem weekends_isOpenAt :
    ¬ (weekends.isOpenAt ⟨⟨12, 0⟩, .wednesday⟩ ↔
        weekends.SomeRange fun rule range => rule.Opens range ⟨⟨12, 0⟩, .wednesday⟩) ∧
      ¬ (mondayNights.isOpenAt ⟨⟨1, 0⟩, .tuesday⟩ ↔
        mondayNights.SomeRange fun rule range => rule.Opens range ⟨⟨1, 0⟩, .tuesday⟩) := by
  have hopen : weekends.isOpenAt ⟨⟨12, 0⟩, .wednesday⟩ = true := by decide
  have hclosed : mondayNights.isOpenAt ⟨⟨1, 0⟩, .tuesday⟩ = false := by decide
  rw [hopen, hclosed]
  simp [SomeRange, weekends, mondayNights, OpeningRule.Opens, OpeningRule.Contains,
    WeekdayRange.Contains, Weekday.daysAfter, Weekday.number, Weekday.prev, TimeRange.FromStart,
    TimeRange.PastMidnight, TimeRange.Overnight, Time.minutes]

end OpeningHours

end Routers
