import Routers.Codec.OpeningHours
import Routers.Library.Text
import Mathlib.Tactic.IntervalCases

/-!
# Opening hours as text

The parser of opening hours reads rules between semicolons.  The first word of a rule with a
colon in it begins its times; of the words before, the first that names weekdays counts.  The
printer writes the times of a rule directly behind its weekdays.

## Main definitions

* `OpeningHoursParser.parse` — the parser.
* `OpeningHours.display` — the printer.
* `OpeningRule.Plain` — the rules that the printer writes legibly.

## Main results

* `OpeningHoursParser.valid_of_parse` — what the parser returns is well formed.
* `OpeningHoursParser.parse_display_iff` — **which opening hours are read back.**

## References

`src/libs/routers_codec/src/osm/parsers/primitives/opening_hours.rs`.
-/

namespace Routers

open Text

/-- The error for a value that is missing. -/
def orError {ε α : Type} (e : ε) : Option α → Except ε α
  | none => .error e
  | some a => .ok a

/-! ### The printer -/

namespace Weekday

/-- The two letters of a weekday. -/
def display : Weekday → List Char
  | monday => ['M', 'o']
  | tuesday => ['T', 'u']
  | wednesday => ['W', 'e']
  | thursday => ['T', 'h']
  | friday => ['F', 'r']
  | saturday => ['S', 'a']
  | sunday => ['S', 'u']

/-- The weekday of a text in any case, by its two letters or its name. -/
def fromStr (unicode : Unicode) (s : List Char) : Option Weekday :=
  let lower := unicode.toLowercase s
  if lower = "mo".toList ∨ lower = "monday".toList then some monday
  else if lower = "tu".toList ∨ lower = "tuesday".toList then some tuesday
  else if lower = "we".toList ∨ lower = "wednesday".toList then some wednesday
  else if lower = "th".toList ∨ lower = "thursday".toList then some thursday
  else if lower = "fr".toList ∨ lower = "friday".toList then some friday
  else if lower = "sa".toList ∨ lower = "saturday".toList then some saturday
  else if lower = "su".toList ∨ lower = "sunday".toList then some sunday
  else none

end Weekday

/-- A number in at least two digits. -/
def twoDigits (n : ℕ) : List Char :=
  if n < 10 then '0' :: Nat.toDigits 10 n else Nat.toDigits 10 n

/-- The hour and the minute, each in two digits. -/
def Time.display (time : Time) : List Char := twoDigits time.hour ++ ':' :: twoDigits time.minute

/-- The start and the end of a range. -/
def TimeRange.display (range : TimeRange) : List Char :=
  range.start.display ++ '-' :: range.stop.display

/-- A day, the first and the last of several, or a list. -/
def WeekdayRange.display : WeekdayRange → List Char
  | single day => day.display
  | range start stop => start.display ++ '-' :: stop.display
  | list days => [','].intercalate (days.map Weekday.display)

/-- The weekdays of a rule and, with nothing between, its times; a rule that closes is printed as
any other. -/
def OpeningRule.display (rule : OpeningRule) : List Char :=
  (rule.weekdays.elim [] WeekdayRange.display) ++
    [','].intercalate (rule.times.map TimeRange.display)

/-- The rules with semicolons between. -/
def OpeningHours.display (hours : OpeningHours) : List Char :=
  [';'].intercalate (hours.rules.map OpeningRule.display)

/-! ### The parser -/

namespace OpeningHoursParser

/-- A part with a colon, of three bytes or more. -/
def looksLikeTime (s : List Char) : Bool := s.contains ':' && decide (utf8Len s ≥ 3)

/-- An hour and a minute, or an hour alone. -/
def parseTime (input : List Char) : Except String Time :=
  let input := trim input
  if ':' ∈ input then
    match input.splitOn ':' with
    | [hour, minute] => do
      let hour ← orError "Invalid hour" (parseUint 255 hour)
      let minute ← orError "Invalid minute" (parseUint 255 minute)
      orError "Invalid time" (Time.new hour minute)
    | _ => .error "Invalid time format"
  else do
    let hour ← orError "Invalid hour" (parseUint 255 input)
    orError "Invalid time" (Time.new hour 0)

/-- A range of two times, or the hour from a single time on. -/
def parseTimeRange (rangePart : List Char) : Except String TimeRange :=
  let rangePart := trim rangePart
  if '-' ∈ rangePart then
    match rangePart.splitOn '-' with
    | [start, stop] => do
      let start ← parseTime (trim start)
      let stop ← parseTime (trim stop)
      return ⟨start, stop⟩
    | _ => .error "Invalid time range format"
  else do
    -- a single time lasts an hour
    let time ← parseTime rangePart
    let endHour := if time.hour = 23 then 0 else time.hour + 1
    let stop ← orError "Invalid time" (Time.new endHour time.minute)
    return ⟨time, stop⟩

/-- The ranges between commas, none of which may be in error. -/
def parseTimeRanges (input : List Char) : Except String (List TimeRange) :=
  (input.splitOn ',').mapM parseTimeRange

variable (unicode : Unicode)

/-- Weekdays from one to another, a list of them, or a single one. -/
def parseWeekdayRange (input : List Char) : Except String WeekdayRange :=
  if '-' ∈ input then
    match input.splitOn '-' with
    | [start, stop] => do
      let start ← orError "Invalid start weekday" (Weekday.fromStr unicode start)
      let stop ← orError "Invalid end weekday" (Weekday.fromStr unicode stop)
      return .range start stop
    | _ => .error "Invalid weekday range"
  else if ',' ∈ input then do
    let days ← (input.splitOn ',').mapM fun part =>
      orError "Invalid weekday in list" (Weekday.fromStr unicode (trim part))
    return .list days
  else do
    let day ← orError "Invalid weekday" (Weekday.fromStr unicode input)
    return .single day

/-- The times of a rule, from the parts that hold them. -/
def parseTimeParts (timeParts : List (List Char)) : Except String (List TimeRange) :=
  if timeParts = [] then .ok [] else parseTimeRanges ([' '].intercalate timeParts)

/-- A rule: that it is closed, or weekdays and times, of which one must be there. -/
def parseRule (rule : List Char) : Except String OpeningRule :=
  let rule := trim rule
  if eqIgnoreAsciiCase rule "closed".toList || eqIgnoreAsciiCase rule "off".toList then
    .ok ⟨none, [], true⟩
  else
    let parts := splitWhitespace rule
    if parts = [] then .error "Empty rule"
    else do
      -- From the first part that looks like a time on, all parts are times.
      let (weekdayParts, timeParts) := parts.span fun part => !looksLikeTime part
      let weekdays := weekdayParts.findSome? fun part => (parseWeekdayRange unicode part).toOption
      let times ← parseTimeParts timeParts
      if weekdays = none ∧ times = [] then .error "No applicable values parsed"
      else .ok ⟨weekdays, times, false⟩

/-- Opening hours: the whole week, or the rules between semicolons. -/
def parse (input : List Char) : Except String OpeningHours :=
  let input := trim input
  if eqIgnoreAsciiCase input "24/7".toList then do
    let start ← orError "Invalid time" (Time.new 0 0)
    let stop ← orError "Invalid time" (Time.new 23 59)
    return ⟨[⟨none, [⟨start, stop⟩], false⟩]⟩
  else do
    let rules ← (input.splitOn ';').mapM fun part => parseRule unicode (trim part)
    if rules = [] then .error "No rules" else .ok ⟨rules⟩

end OpeningHoursParser

/-! ### The characters of the printer -/

/-- The characters that the printer uses within a rule. -/
def isRuleChar (c : Char) : Bool := c.isAlphanum || c == ':' || c == '-' || c == ','

theorem isRuleChar_ascii {c : Char} (h : isRuleChar c) : c.toNat < 128 := by
  have hval : c.toNat = c.val.toNat := rfl
  have hrange : (decide (c.val ≥ 'A'.val ∧ c.val ≤ 'Z'.val) ||
      decide (c.val ≥ 'a'.val) && decide (c.val ≤ 'z'.val) ||
      decide (c.val ≥ '0'.val) && decide (c.val ≤ '9'.val) ||
      c == ':' || c == '-' || c == ',') = true := h
  simp only [Bool.or_eq_true, Bool.and_eq_true, decide_eq_true_eq, beq_iff_eq,
    UInt32.le_iff_toNat_le] at hrange
  rcases hrange with ((((⟨-, h⟩ | ⟨-, h⟩) | ⟨-, h⟩) | rfl) | rfl) | rfl
  · exact lt_of_le_of_lt h (by decide)
  · exact lt_of_le_of_lt h (by decide)
  · exact lt_of_le_of_lt h (by decide)
  all_goals decide

/-- They are neither blanks nor quotes, and mean nothing between rules. -/
theorem ruleChar_facts {c : Char} (h : isRuleChar c) :
    isWhitespace c = false ∧ c.toLower ≠ '/' ∧ c ≠ ';' ∧ c ≠ '"' := by
  refine forall_ascii (P := fun c => isRuleChar c → isWhitespace c = false ∧ c.toLower ≠ '/' ∧
    c ≠ ';' ∧ c ≠ '"') ?_ c (isRuleChar_ascii h) h
  decide

theorem isDigit_of_mem_twoDigits {n : ℕ} {c : Char} (h : c ∈ twoDigits n) : c.isDigit := by
  have hdigits : c ∈ Nat.toDigits 10 n → c.isDigit :=
    Nat.isDigit_of_mem_toDigits (by decide) (by decide)
  unfold twoDigits at h
  split_ifs at h
  · obtain rfl | h := List.mem_cons.mp h
    · rfl
    · exact hdigits h
  · exact hdigits h

theorem parseUint_twoDigits {n : ℕ} (h : n ≤ 255) : parseUint 255 (twoDigits n) = some n := by
  unfold twoDigits
  split_ifs with hlt
  · interval_cases n <;> decide
  · exact parseUint_toDigits h

theorem isRuleChar_of_mem_twoDigits {n : ℕ} {c : Char} (h : c ∈ twoDigits n) : isRuleChar c := by
  simp [isRuleChar, Char.isAlphanum, isDigit_of_mem_twoDigits h]

theorem Time.isRuleChar_of_mem_display {time : Time} {c : Char} (h : c ∈ time.display) :
    isRuleChar c := by
  rw [Time.display, List.mem_append, List.mem_cons] at h
  obtain h | rfl | h := h
  · exact isRuleChar_of_mem_twoDigits h
  · rfl
  · exact isRuleChar_of_mem_twoDigits h

theorem TimeRange.isRuleChar_of_mem_display {range : TimeRange} {c : Char}
    (h : c ∈ range.display) : isRuleChar c := by
  rw [TimeRange.display, List.mem_append, List.mem_cons] at h
  obtain h | rfl | h := h
  · exact Time.isRuleChar_of_mem_display h
  · rfl
  · exact Time.isRuleChar_of_mem_display h

theorem Weekday.isAlpha_of_mem_display {day : Weekday} {c : Char} (h : c ∈ day.display) :
    c.isAlpha := by
  revert c
  cases day <;> decide

theorem WeekdayRange.mem_display {weekdays : WeekdayRange} {c : Char} (h : c ∈ weekdays.display) :
    c.isAlpha ∨ c = '-' ∨ c = ',' := by
  cases weekdays with
  | single day => exact .inl (day.isAlpha_of_mem_display h)
  | range start stop =>
    rw [display, List.mem_append, List.mem_cons] at h
    obtain h | rfl | h := h
    · exact .inl (start.isAlpha_of_mem_display h)
    · exact .inr (.inl rfl)
    · exact .inl (stop.isAlpha_of_mem_display h)
  | list days =>
    obtain rfl | ⟨l, hl, hc⟩ := mem_intercalate h
    · exact .inr (.inr rfl)
    · obtain ⟨day, -, rfl⟩ := List.mem_map.mp hl
      exact .inl (day.isAlpha_of_mem_display hc)

theorem WeekdayRange.isRuleChar_of_mem_display {weekdays : WeekdayRange} {c : Char}
    (h : c ∈ weekdays.display) : isRuleChar c := by
  obtain h | rfl | rfl := weekdays.mem_display h
  · simp [isRuleChar, Char.isAlphanum, h]
  · rfl
  · rfl

theorem OpeningRule.isRuleChar_of_mem_display {rule : OpeningRule} {c : Char}
    (h : c ∈ rule.display) : isRuleChar c := by
  rw [OpeningRule.display, List.mem_append] at h
  obtain h | h := h
  · cases hw : rule.weekdays with
    | none => simp [hw] at h
    | some weekdays =>
      rw [hw] at h
      exact WeekdayRange.isRuleChar_of_mem_display h
  · obtain rfl | ⟨l, hl, hc⟩ := mem_intercalate h
    · rfl
    · obtain ⟨range, -, rfl⟩ := List.mem_map.mp hl
      exact TimeRange.isRuleChar_of_mem_display hc

theorem OpeningHours.mem_display {hours : OpeningHours} {c : Char} (h : c ∈ hours.display) :
    c = ';' ∨ isRuleChar c := by
  obtain h | ⟨l, hl, hc⟩ := mem_intercalate h
  · exact .inl h
  · obtain ⟨rule, -, rfl⟩ := List.mem_map.mp hl
    exact .inr (OpeningRule.isRuleChar_of_mem_display hc)

theorem OpeningRule.trim_display (rule : OpeningRule) : trim rule.display = rule.display :=
  trim_eq_self_of_forall fun _ hc => (ruleChar_facts (isRuleChar_of_mem_display hc)).1

/-! ### What the parser returns -/

/-- A time of the day, the end of the day included. -/
def Time.Valid (time : Time) : Prop := time.hour ≤ 24 ∧ time.minute ≤ 59

theorem Time.new_eq_some_iff {hour minute : ℕ} {time : Time} :
    Time.new hour minute = some time ↔ time = ⟨hour, minute⟩ ∧ time.Valid := by
  unfold Time.new Time.Valid
  split_ifs with h
  · constructor
    · intro h'
      cases h'
    · rintro ⟨rfl, hhour, hminute⟩
      exact absurd h (not_or.mpr ⟨not_lt.mpr hhour, not_lt.mpr hminute⟩)
  · obtain ⟨hhour, hminute⟩ := not_or.mp h
    constructor
    · intro h'
      cases h'
      exact ⟨rfl, not_lt.mp hhour, not_lt.mp hminute⟩
    · rintro ⟨rfl, -⟩
      rfl

/-- A rule as the parser returns it. -/
structure OpeningRule.Valid (rule : OpeningRule) : Prop where
  of_closed : rule.closed = true → rule.weekdays = none ∧ rule.times = []
  of_open : rule.closed = false → rule.weekdays ≠ none ∨ rule.times ≠ []
  times : ∀ range ∈ rule.times, range.start.Valid ∧ range.stop.Valid
  days : ∀ days, rule.weekdays = some (.list days) → 2 ≤ days.length

@[simp] theorem orError_eq_ok_iff {ε α : Type} {e : ε} {o : Option α} {a : α} :
    orError e o = .ok a ↔ o = some a := by
  cases o with
  | none => simp [orError]
  | some b => simp [orError]

theorem exceptBind_eq_ok_iff {ε α β : Type} {x : Except ε α} {f : α → Except ε β} {b : β} :
    x >>= f = .ok b ↔ ∃ a, x = .ok a ∧ f a = .ok b := by
  cases x with
  | error e => simp [bind, Except.bind]
  | ok a => simp [bind, Except.bind]

namespace OpeningHoursParser

theorem valid_of_parseTime {input : List Char} {time : Time} (h : parseTime input = .ok time) :
    time.Valid := by
  simp only [parseTime] at h
  split_ifs at h
  · split at h
    · simp only [exceptBind_eq_ok_iff, orError_eq_ok_iff, Time.new_eq_some_iff] at h
      obtain ⟨-, -, -, -, -, hvalid⟩ := h
      exact hvalid
    · cases h
  · simp only [exceptBind_eq_ok_iff, orError_eq_ok_iff, Time.new_eq_some_iff] at h
    obtain ⟨-, -, -, hvalid⟩ := h
    exact hvalid

theorem valid_of_parseTimeRange {input : List Char} {range : TimeRange}
    (h : parseTimeRange input = .ok range) : range.start.Valid ∧ range.stop.Valid := by
  simp only [parseTimeRange] at h
  split_ifs at h
  · split at h
    · simp only [exceptBind_eq_ok_iff] at h
      obtain ⟨start, hstart, stop, hstop, h⟩ := h
      cases h
      exact ⟨valid_of_parseTime hstart, valid_of_parseTime hstop⟩
    · cases h
  · simp only [exceptBind_eq_ok_iff, orError_eq_ok_iff, Time.new_eq_some_iff] at h
    obtain ⟨start, hstart, stop, ⟨-, hstop⟩, h⟩ := h
    cases h
    exact ⟨valid_of_parseTime hstart, hstop⟩

theorem valid_of_parseTimeRanges {input : List Char} {times : List TimeRange}
    (h : parseTimeRanges input = .ok times) :
    ∀ range ∈ times, range.start.Valid ∧ range.stop.Valid := by
  intro range hrange
  obtain ⟨part, -, hpart⟩ := exists_of_mem_mapM h hrange
  exact valid_of_parseTimeRange hpart

variable {unicode : Unicode}

theorem length_of_parseWeekdayRange {input : List Char} {days : List Weekday}
    (h : parseWeekdayRange unicode input = .ok (.list days)) : 2 ≤ days.length := by
  simp only [parseWeekdayRange] at h
  split_ifs at h with _ hcomma
  · split at h
    · simp only [exceptBind_eq_ok_iff] at h
      obtain ⟨_, _, _, _, h⟩ := h
      cases h
    · cases h
  · simp only [exceptBind_eq_ok_iff, mapM_eq_ok_iff] at h
    obtain ⟨days', hdays, h⟩ := h
    cases h
    rw [← hdays.length_eq]
    exact two_le_length_splitOn hcomma
  · simp only [exceptBind_eq_ok_iff] at h
    obtain ⟨_, _, h⟩ := h
    cases h

theorem valid_of_parseTimeParts {timeParts : List (List Char)} {times : List TimeRange}
    (h : parseTimeParts timeParts = .ok times) :
    ∀ range ∈ times, range.start.Valid ∧ range.stop.Valid := by
  unfold parseTimeParts at h
  split_ifs at h
  · cases h
    simp
  · exact valid_of_parseTimeRanges h

/-- **A rule that is returned is well formed.** -/
theorem valid_of_parseRule {part : List Char} {rule : OpeningRule}
    (h : parseRule unicode part = .ok rule) : rule.Valid := by
  simp only [parseRule] at h
  split_ifs at h with hclosed hempty
  · cases h
    exact ⟨fun _ => ⟨rfl, rfl⟩, fun h => Bool.noConfusion h, by simp, by simp⟩
  · rw [exceptBind_eq_ok_iff] at h
    obtain ⟨times, htimes, h⟩ := h
    split_ifs at h with hnone
    cases h
    refine ⟨fun h => Bool.noConfusion h, fun _ => not_and_or.mp hnone,
      valid_of_parseTimeParts htimes, fun days hdays => ?_⟩
    obtain ⟨part, -, hpart⟩ := List.exists_of_findSome?_eq_some hdays
    cases hparsed : parseWeekdayRange unicode part with
    | error e =>
      rw [hparsed] at hpart
      cases hpart
    | ok weekdays =>
      rw [hparsed] at hpart
      cases hpart
      exact length_of_parseWeekdayRange hparsed

theorem valid_of_parse {input : List Char} {hours : OpeningHours}
    (h : parse unicode input = .ok hours) :
    hours.rules ≠ [] ∧ ∀ rule ∈ hours.rules, rule.Valid := by
  simp only [parse] at h
  split_ifs at h
  · simp only [exceptBind_eq_ok_iff, orError_eq_ok_iff, Time.new_eq_some_iff] at h
    obtain ⟨start, ⟨rfl, hstart⟩, stop, ⟨rfl, hstop⟩, h⟩ := h
    cases h
    refine ⟨by simp, fun rule hrule => ?_⟩
    rw [List.mem_singleton.mp hrule]
    exact ⟨fun h => Bool.noConfusion h, fun _ => .inr (by simp), by simp [hstart, hstop], by simp⟩
  · simp only [exceptBind_eq_ok_iff] at h
    obtain ⟨rules, hrules, h⟩ := h
    split_ifs at h with hne
    cases h
    refine ⟨hne, fun rule hrule => ?_⟩
    obtain ⟨part, -, hpart⟩ := exists_of_mem_mapM hrules hrule
    exact valid_of_parseRule hpart

/-! ### Reading back what is printed -/

theorem not_mem_twoDigits {n : ℕ} {c : Char} (hc : c.isDigit = false) : c ∉ twoDigits n :=
  fun h => by simp [isDigit_of_mem_twoDigits h] at hc

theorem parseTime_display {time : Time} (h : time.Valid) : parseTime time.display = .ok time := by
  have htrim : trim time.display = time.display :=
    trim_eq_self_of_forall fun _ hc => (ruleChar_facts (Time.isRuleChar_of_mem_display hc)).1
  have hsplit : time.display.splitOn ':' = [twoDigits time.hour, twoDigits time.minute] := by
    rw [Time.display, List.splitOn_append_cons_self_of_not_mem (not_mem_twoDigits rfl),
      List.splitOn_eq_singleton (not_mem_twoDigits rfl)]
  have hcolon : ':' ∈ time.display := by simp [Time.display]
  have hhour : parseUint 255 (twoDigits time.hour) = some time.hour :=
    parseUint_twoDigits (h.1.trans (by decide))
  have hminute : parseUint 255 (twoDigits time.minute) = some time.minute :=
    parseUint_twoDigits (h.2.trans (by decide))
  simp only [parseTime, htrim, if_pos hcolon, hsplit, exceptBind_eq_ok_iff, orError_eq_ok_iff]
  exact ⟨_, hhour, _, hminute, Time.new_eq_some_iff.mpr ⟨rfl, h⟩⟩

theorem not_mem_display {time : Time} {c : Char} (hc : c.isDigit = false) (hcolon : c ≠ ':') :
    c ∉ time.display := by
  rw [Time.display, List.mem_append, List.mem_cons]
  rintro (h | h | h)
  · exact not_mem_twoDigits hc h
  · exact hcolon h
  · exact not_mem_twoDigits hc h

theorem parseTimeRange_display {range : TimeRange} (hstart : range.start.Valid)
    (hstop : range.stop.Valid) : parseTimeRange range.display = .ok range := by
  have htrim : trim range.display = range.display :=
    trim_eq_self_of_forall fun _ hc => (ruleChar_facts (TimeRange.isRuleChar_of_mem_display hc)).1
  have htime : ∀ time : Time, trim time.display = time.display := fun time =>
    trim_eq_self_of_forall fun _ hc => (ruleChar_facts (Time.isRuleChar_of_mem_display hc)).1
  have hsplit : range.display.splitOn '-' = [range.start.display, range.stop.display] := by
    rw [TimeRange.display,
      List.splitOn_append_cons_self_of_not_mem (not_mem_display rfl (by decide)),
      List.splitOn_eq_singleton (not_mem_display rfl (by decide))]
  have hminus : '-' ∈ range.display := by simp [TimeRange.display]
  simp only [parseTimeRange, htrim, if_pos hminus, hsplit, exceptBind_eq_ok_iff, htime]
  exact ⟨_, parseTime_display hstart, _, parseTime_display hstop, rfl⟩

theorem parseTimeRanges_display {times : List TimeRange} (hne : times ≠ [])
    (h : ∀ range ∈ times, range.start.Valid ∧ range.stop.Valid) :
    parseTimeRanges ([','].intercalate (times.map TimeRange.display)) = .ok times := by
  have hcomma : ∀ l ∈ times.map TimeRange.display, ',' ∉ l := by
    intro l hl
    obtain ⟨range, -, rfl⟩ := List.mem_map.mp hl
    rw [TimeRange.display, List.mem_append, List.mem_cons]
    rintro (h | h | h)
    · exact not_mem_display rfl (by decide) h
    · exact absurd h (by decide)
    · exact not_mem_display rfl (by decide) h
  rw [parseTimeRanges, List.splitOn_intercalate ',' hcomma (by simpa using hne), mapM_eq_ok_iff,
    List.forall₂_map_left_iff, List.forall₂_same]
  exact fun range hrange => parseTimeRange_display (h range hrange).1 (h range hrange).2

theorem fromStr_display (day : Weekday) : Weekday.fromStr unicode day.display = some day := by
  have hlower : unicode.toLowercase day.display = day.display.map Char.toLower :=
    unicode.toLowercase_ascii _ (by cases day <;> decide)
  unfold Weekday.fromStr
  rw [hlower]
  cases day <;> decide

theorem trim_weekday_display (day : Weekday) : trim day.display = day.display := by
  cases day <;> decide

theorem not_mem_weekday_display {day : Weekday} {c : Char} (hc : c.isAlpha = false) :
    c ∉ day.display :=
  fun h => by simp [day.isAlpha_of_mem_display h] at hc

theorem parseWeekdayRange_display {weekdays : WeekdayRange}
    (h : ∀ days, weekdays = .list days → 2 ≤ days.length) :
    parseWeekdayRange unicode weekdays.display = .ok weekdays := by
  cases weekdays with
  | single day =>
    have hminus : '-' ∉ day.display := not_mem_weekday_display rfl
    have hcomma : ',' ∉ day.display := not_mem_weekday_display rfl
    change parseWeekdayRange unicode day.display = _
    simp only [parseWeekdayRange, if_neg hminus, if_neg hcomma, exceptBind_eq_ok_iff,
      orError_eq_ok_iff]
    exact ⟨day, fromStr_display day, rfl⟩
  | range start stop =>
    have hsplit : (WeekdayRange.range start stop).display.splitOn '-'
        = [start.display, stop.display] := by
      rw [WeekdayRange.display,
        List.splitOn_append_cons_self_of_not_mem (not_mem_weekday_display rfl),
        List.splitOn_eq_singleton (not_mem_weekday_display rfl)]
    have hminus : '-' ∈ (WeekdayRange.range start stop).display := by simp [WeekdayRange.display]
    simp only [parseWeekdayRange, if_pos hminus, hsplit, exceptBind_eq_ok_iff, orError_eq_ok_iff]
    exact ⟨start, fromStr_display start, stop, fromStr_display stop, rfl⟩
  | list days =>
    have hmem : ∀ c, c.isAlpha = false → ∀ l ∈ days.map Weekday.display, c ∉ l := by
      intro c hc l hl
      obtain ⟨day, -, rfl⟩ := List.mem_map.mp hl
      exact not_mem_weekday_display hc
    have hne : days.map Weekday.display ≠ [] := by
      have := h days rfl
      intro hnil
      simp_all
    have hsplit : (WeekdayRange.list days).display.splitOn ',' = days.map Weekday.display :=
      List.splitOn_intercalate ',' (hmem ',' rfl) hne
    have hminus : '-' ∉ (WeekdayRange.list days).display := by
      intro hc
      obtain hc | ⟨l, hl, hc⟩ := mem_intercalate hc
      · exact absurd hc (by decide)
      · exact hmem '-' rfl l hl hc
    have hcomma : ',' ∈ (WeekdayRange.list days).display := by
      by_contra hcomma
      have hone := congrArg List.length hsplit
      rw [List.splitOn_eq_singleton hcomma, List.length_map] at hone
      have := h days rfl
      simp at hone
      omega
    simp only [parseWeekdayRange, if_neg hminus, if_pos hcomma, hsplit, exceptBind_eq_ok_iff]
    refine ⟨days, ?_, rfl⟩
    rw [mapM_eq_ok_iff, List.forall₂_map_left_iff, List.forall₂_same]
    intro day _
    rw [trim_weekday_display, fromStr_display]
    rfl

end OpeningHoursParser

/-- The printer begins weekdays with a capital letter. -/
theorem WeekdayRange.exists_display_cons {weekdays : WeekdayRange}
    (h : ∀ days, weekdays = .list days → 2 ≤ days.length) :
    ∃ c s, weekdays.display = c :: s ∧ c ∈ ['M', 'T', 'W', 'F', 'S'] := by
  have hday : ∀ day : Weekday, ∃ c s, day.display = c :: s ∧ c ∈ ['M', 'T', 'W', 'F', 'S'] := by
    intro day
    cases day <;> exact ⟨_, _, rfl, by decide⟩
  cases weekdays with
  | single day => exact hday day
  | range start stop =>
    obtain ⟨c, s, hcs, hc⟩ := hday start
    exact ⟨c, _, by rw [display, hcs, List.cons_append], hc⟩
  | list days =>
    have hlen := h days rfl
    obtain ⟨day, days, rfl⟩ := List.exists_cons_of_length_pos (by omega : 0 < days.length)
    obtain ⟨c, s, hcs, hc⟩ := hday day
    obtain ⟨rest, hrest⟩ := exists_intercalate_cons [','] day.display (days.map Weekday.display)
    exact ⟨c, s ++ rest, by rw [display, List.map_cons, hrest, hcs, List.cons_append], hc⟩

theorem twoDigits_ne_nil (n : ℕ) : twoDigits n ≠ [] := by
  unfold twoDigits
  split_ifs
  · exact List.cons_ne_nil _ _
  · exact Nat.toDigits_ne_nil

/-- The printer begins times with a digit, and writes at least three characters. -/
theorem exists_display_times_cons {times : List TimeRange} (h : times ≠ []) :
    ∃ c s, [','].intercalate (times.map TimeRange.display) = c :: s ∧ c.isDigit ∧ ':' ∈ s ∧
      2 ≤ s.length := by
  obtain ⟨range, times, rfl⟩ := List.exists_cons_of_ne_nil h
  obtain ⟨c, hour, hhour⟩ := List.exists_cons_of_ne_nil (twoDigits_ne_nil range.start.hour)
  obtain ⟨d, minute, hminute⟩ := List.exists_cons_of_ne_nil (twoDigits_ne_nil range.start.minute)
  obtain ⟨rest, hrest⟩ :=
    exists_intercalate_cons [','] range.display (times.map TimeRange.display)
  have hdigit : c.isDigit := isDigit_of_mem_twoDigits (hhour ▸ List.mem_cons_self)
  refine ⟨c, hour ++ ':' :: d :: minute ++ '-' :: range.stop.display ++ rest, ?_, hdigit, ?_, ?_⟩
  · rw [List.map_cons, hrest, TimeRange.display, Time.display, hhour, hminute]
    simp only [List.cons_append]
  · simp
  · simp
    omega

/-- The rules that the printer writes legibly: those with weekdays or times, and not both. -/
def OpeningRule.Plain (rule : OpeningRule) : Prop :=
  rule.closed = false ∧ (rule.weekdays = none ∨ rule.times = [])

namespace OpeningHoursParser

theorem not_mem_of_capital : ∀ c ∈ ['M', 'T', 'W', 'F', 'S'], c.toLower ∉ ['c', 'o'] := by
  decide

theorem not_mem_of_isDigit {c : Char} (h : c.isDigit) : c.toLower ∉ ['c', 'o'] := by
  have hrule : isRuleChar c := by simp [isRuleChar, Char.isAlphanum, h]
  refine forall_ascii (P := fun c => c.isDigit → c.toLower ∉ ['c', 'o']) ?_ c
    (isRuleChar_ascii hrule) h
  decide

theorem looksLikeTime_cons {c : Char} {s : List Char} (hcolon : ':' ∈ s) (hlen : 2 ≤ s.length) :
    looksLikeTime (c :: s) := by
  have hlong : 3 ≤ utf8Len (c :: s) :=
    le_trans (Nat.succ_le_succ hlen) (length_le_utf8Len (c :: s))
  rw [looksLikeTime, List.contains_eq_mem, decide_eq_true (List.mem_cons_of_mem c hcolon),
    Bool.true_and]
  exact decide_eq_true hlong

/-- What a rule of one word is read as: times where it looks like them, weekdays where not. -/
def parseWord (unicode : Unicode) (s : List Char) : Except String OpeningRule :=
  if looksLikeTime s then
    (parseTimeRanges s).bind fun times =>
      if times = [] then .error "No applicable values parsed" else .ok ⟨none, times, false⟩
  else
    match parseWeekdayRange unicode s with
    | .error _ => .error "No applicable values parsed"
    | .ok weekdays => .ok ⟨some weekdays, [], false⟩

theorem parseRule_word {s : List Char} (hne : s ≠ [])
    (hblank : ∀ d ∈ s, isWhitespace d = false)
    (hclosed : eqIgnoreAsciiCase s "closed".toList = false)
    (hoff : eqIgnoreAsciiCase s "off".toList = false) :
    parseRule unicode s = parseWord unicode s := by
  simp only [parseRule, parseWord, trim_eq_self_of_forall hblank, hclosed, hoff,
    splitWhitespace_eq_singleton hne hblank, List.cons_ne_nil, Bool.or_self, Bool.false_eq_true,
    if_false]
  by_cases htime : looksLikeTime s
  · have hspan : [s].span (fun part => !looksLikeTime part) = ([], [s]) := by
      simp [List.span, List.span.loop, htime]
    rw [if_pos htime, hspan]
    simp only [parseTimeParts, List.cons_ne_nil, if_false, List.findSome?_nil,
      List.intercalate_singleton, true_and]
    rfl
  · have hspan : [s].span (fun part => !looksLikeTime part) = ([s], []) := by
      simp [List.span, List.span.loop, htime]
    rw [if_neg htime, hspan]
    simp only [parseTimeParts, if_true, List.findSome?_cons]
    split
    · next e heq => simp [heq, Except.toOption, bind, Except.bind]
    · next weekdays heq => simp [heq, Except.toOption, bind, Except.bind]

/-- A rule that is printed, by what its first character tells. -/
theorem parseRule_cons {c : Char} {s : List Char} (hc : c.toLower ∉ ['c', 'o'])
    (hword : ∀ d ∈ c :: s, isRuleChar d) :
    parseRule unicode (c :: s) = parseWord unicode (c :: s) := by
  obtain ⟨hc1, hc2⟩ : c.toLower ≠ 'c' ∧ c.toLower ≠ 'o' := by simpa using hc
  refine parseRule_word (List.cons_ne_nil c s) ?_ ?_ ?_
  · intro d hd
    exact (ruleChar_facts (hword d hd)).1
  · exact beq_eq_false_iff_ne.mpr fun h => hc1 (List.cons.inj h).1
  · exact beq_eq_false_iff_ne.mpr fun h => hc2 (List.cons.inj h).1

/-- **A plain rule is read back.** -/
theorem parseRule_display {rule : OpeningRule} (hvalid : rule.Valid) (hplain : rule.Plain) :
    parseRule unicode rule.display = .ok rule := by
  obtain ⟨weekdays, times, closed⟩ := rule
  obtain ⟨rfl, hplain⟩ := hplain
  have hword : ∀ d ∈ (⟨weekdays, times, false⟩ : OpeningRule).display, isRuleChar d :=
    fun _ => OpeningRule.isRuleChar_of_mem_display
  by_cases htimes : times = []
  · subst htimes
    obtain ⟨weekdays, rfl⟩ : ∃ w, weekdays = some w :=
      Option.ne_none_iff_exists'.mp ((hvalid.of_open rfl).resolve_right fun h => h rfl)
    have hdays : ∀ days, weekdays = .list days → 2 ≤ days.length := by
      rintro days rfl
      exact hvalid.days days rfl
    have hdisplay : (⟨some weekdays, [], false⟩ : OpeningRule).display = weekdays.display := by
      simp [OpeningRule.display]
    obtain ⟨c, s, hcs, hc⟩ := WeekdayRange.exists_display_cons hdays
    have hcolon : ':' ∉ weekdays.display := fun h =>
      absurd (weekdays.mem_display h) (by decide)
    rw [hdisplay] at hword ⊢
    rw [hcs] at hword hcolon ⊢
    have hlower : c.toLower ∉ ['c', 'o'] := not_mem_of_capital c hc
    rw [parseRule_cons hlower hword, parseWord, if_neg (by simp [looksLikeTime, hcolon]), ← hcs,
      parseWeekdayRange_display hdays]
  · obtain rfl : weekdays = none := hplain.resolve_right htimes
    have hdisplay : (⟨none, times, false⟩ : OpeningRule).display
        = [','].intercalate (times.map TimeRange.display) := by
      simp [OpeningRule.display]
    obtain ⟨c, s, hcs, hc, hcolon, hlen⟩ := exists_display_times_cons htimes
    rw [hdisplay] at hword ⊢
    have hread := parseTimeRanges_display htimes hvalid.times
    rw [hcs] at hword hread ⊢
    have hlower : c.toLower ∉ ['c', 'o'] := not_mem_of_isDigit hc
    rw [parseRule_cons hlower hword, parseWord, if_pos (looksLikeTime_cons hcolon hlen), hread]
    exact if_neg htimes

/-! ### What is not read back -/

/-- The capitals of the weekdays are neither digits nor mean anything in times. -/
theorem capital_facts : ∀ c ∈ ['M', 'T', 'W', 'F', 'S'],
    c.isDigit = false ∧ c ≠ '+' ∧ isWhitespace c = false ∧ c ≠ ':' ∧ c ≠ '-' ∧ c ≠ ',' := by
  decide

variable {c : Char} {s : List Char}

theorem parseTime_capital (hc : c ∈ ['M', 'T', 'W', 'F', 'S']) (time : Time) :
    parseTime (c :: s) ≠ .ok time := by
  obtain ⟨hdigit, hplus, hblank, hcolon, -, -⟩ := capital_facts c hc
  obtain ⟨t, ht⟩ := exists_trim_cons (s := s) hblank
  obtain ⟨hour, rest, hsplit⟩ := exists_splitOn_cons (s := t) hcolon
  intro h
  simp only [parseTime, ht, hsplit] at h
  split_ifs at h
  · split at h
    · next heq =>
      rw [← (List.cons.inj heq).1, parseUint_eq_none hdigit hplus] at h
      cases h
    · cases h
  · rw [parseUint_eq_none hdigit hplus] at h
    cases h

theorem parseTimeRange_capital (hc : c ∈ ['M', 'T', 'W', 'F', 'S']) (range : TimeRange) :
    parseTimeRange (c :: s) ≠ .ok range := by
  obtain ⟨-, -, hblank, -, hminus, -⟩ := capital_facts c hc
  obtain ⟨t, ht⟩ := exists_trim_cons (s := s) hblank
  obtain ⟨start, rest, hsplit⟩ := exists_splitOn_cons (s := t) hminus
  obtain ⟨start', hstart⟩ := exists_trim_cons (s := start) hblank
  intro h
  simp only [parseTimeRange, ht, hsplit] at h
  split_ifs at h
  · split at h
    · next heq =>
      rw [← (List.cons.inj heq).1, hstart, exceptBind_eq_ok_iff] at h
      obtain ⟨time, htime, -⟩ := h
      exact parseTime_capital hc time htime
    · cases h
  · rw [exceptBind_eq_ok_iff] at h
    obtain ⟨time, htime, -⟩ := h
    exact parseTime_capital hc time htime

theorem parseTimeRanges_capital (hc : c ∈ ['M', 'T', 'W', 'F', 'S']) (times : List TimeRange) :
    parseTimeRanges (c :: s) ≠ .ok times := by
  obtain ⟨t, rest, hsplit⟩ := exists_splitOn_cons (s := s) (capital_facts c hc).2.2.2.2.2
  intro h
  rw [parseTimeRanges, hsplit, mapM_eq_ok_iff, List.forall₂_cons_left_iff] at h
  obtain ⟨range, -, hrange, -⟩ := h
  exact parseTimeRange_capital hc range hrange

/-- **A rule that is not plain is not read back.** -/
theorem parseRule_display_ne {rule : OpeningRule} (hvalid : rule.Valid) (hplain : ¬ rule.Plain)
    (rule' : OpeningRule) : parseRule unicode rule.display ≠ .ok rule' := by
  obtain ⟨weekdays, times, closed⟩ := rule
  cases closed with
  | true =>
    -- A rule that says closed is printed as nothing.
    obtain ⟨rfl, rfl⟩ := hvalid.of_closed rfl
    intro h
    cases h
  | false =>
    obtain ⟨hweekdays, htimes⟩ := not_or.mp fun h => hplain ⟨rfl, h⟩
    obtain ⟨weekdays, rfl⟩ := Option.ne_none_iff_exists'.mp hweekdays
    have hword : ∀ d ∈ (⟨some weekdays, times, false⟩ : OpeningRule).display, isRuleChar d :=
      fun _ => OpeningRule.isRuleChar_of_mem_display
    have hdays : ∀ days, weekdays = .list days → 2 ≤ days.length := by
      rintro days rfl
      exact hvalid.days days rfl
    obtain ⟨c, s, hcs, hc⟩ := WeekdayRange.exists_display_cons hdays
    obtain ⟨d, t, hdt, -, hcolon, hlen⟩ := exists_display_times_cons htimes
    have hdisplay : (⟨some weekdays, times, false⟩ : OpeningRule).display
        = c :: (s ++ d :: t) := by
      rw [OpeningRule.display, hdt]
      exact congrArg (· ++ d :: t) hcs
    rw [hdisplay] at hword ⊢
    -- Weekdays and times are one word, and its colon makes it times.
    have htime : looksLikeTime (c :: (s ++ d :: t)) := by
      apply looksLikeTime_cons (by simp [hcolon])
      simp
      omega
    rw [parseRule_cons (not_mem_of_capital c hc) hword, parseWord, if_pos htime]
    intro h
    obtain ⟨times', htimes', -⟩ := exceptBind_eq_ok_iff.mp h
    exact parseTimeRanges_capital hc times' htimes'

/-- The rules printed are what the parser reads between the semicolons. -/
theorem parse_display {hours : OpeningHours} (hne : hours.rules ≠ []) :
    parse unicode hours.display =
      (hours.rules.map OpeningRule.display).mapM (fun part => parseRule unicode (trim part)) >>=
        fun rules => if rules = [] then .error "No rules" else .ok ⟨rules⟩ := by
  have htrim : trim hours.display = hours.display := by
    apply trim_eq_self_of_forall
    intro c hc
    obtain rfl | hc := hours.mem_display hc
    · rfl
    · exact (ruleChar_facts hc).1
  have halways : eqIgnoreAsciiCase hours.display "24/7".toList = false := by
    apply eqIgnoreAsciiCase_eq_false_right (c := '/') (by decide)
    intro c hc
    obtain rfl | hc := hours.mem_display hc
    · decide
    · exact (ruleChar_facts hc).2.1
  have hsemi : ∀ l ∈ hours.rules.map OpeningRule.display, ';' ∉ l := by
    intro l hl
    obtain ⟨rule, -, rfl⟩ := List.mem_map.mp hl
    exact fun hc => (ruleChar_facts (OpeningRule.isRuleChar_of_mem_display hc)).2.2.1 rfl
  have hsplit : hours.display.splitOn ';' = hours.rules.map OpeningRule.display :=
    List.splitOn_intercalate ';' hsemi (by simpa using hne)
  simp only [parse, htrim, halways, hsplit, Bool.false_eq_true, if_false]

theorem parseRule_display_iff {rule rule' : OpeningRule} (hvalid : rule.Valid) :
    parseRule unicode (trim rule.display) = .ok rule' ↔ rule.Plain ∧ rule' = rule := by
  rw [rule.trim_display]
  by_cases hplain : rule.Plain
  · rw [parseRule_display hvalid hplain, Except.ok.injEq]
    exact ⟨fun h => ⟨hplain, h.symm⟩, fun h => h.2.symm⟩
  · exact iff_of_false (parseRule_display_ne hvalid hplain rule') fun h => hplain h.1

/-- The rules that are read back are plain, and the ones printed. -/
theorem plain_of_parsed {rules rules' : List OpeningRule} (hvalid : ∀ rule ∈ rules, rule.Valid)
    (h : List.Forall₂ (fun rule rule' => parseRule unicode (trim rule.display) = .ok rule')
      rules rules') : (∀ rule ∈ rules, rule.Plain) ∧ rules' = rules := by
  induction h with
  | nil => simp
  | cons hrule _ ih =>
    obtain ⟨hvalid, hrest⟩ := List.forall_mem_cons.mp hvalid
    obtain ⟨hplain, rfl⟩ := (parseRule_display_iff hvalid).mp hrule
    obtain ⟨hplains, rfl⟩ := ih hrest
    exact ⟨List.forall_mem_cons.mpr ⟨hplain, hplains⟩, rfl⟩

/-- **Which opening hours are read back**: those all of whose rules are plain.  What is printed of
others is not accepted. -/
theorem parse_display_iff {hours hours' : OpeningHours} (hne : hours.rules ≠ [])
    (hvalid : ∀ rule ∈ hours.rules, rule.Valid) :
    parse unicode hours.display = .ok hours' ↔
      (∀ rule ∈ hours.rules, rule.Plain) ∧ hours' = hours := by
  rw [parse_display hne, exceptBind_eq_ok_iff]
  constructor
  · rintro ⟨rules, hrules, h⟩
    split_ifs at h
    cases h
    rw [mapM_eq_ok_iff, List.forall₂_map_left_iff] at hrules
    obtain ⟨hplain, rfl⟩ := plain_of_parsed hvalid hrules
    exact ⟨hplain, rfl⟩
  · rintro ⟨hplain, rfl⟩
    refine ⟨hours'.rules, ?_, if_neg hne⟩
    rw [mapM_eq_ok_iff, List.forall₂_map_left_iff, List.forall₂_same]
    exact fun rule hrule => (parseRule_display_iff (hvalid rule hrule)).mpr ⟨hplain rule hrule, rfl⟩

end OpeningHoursParser

end Routers
