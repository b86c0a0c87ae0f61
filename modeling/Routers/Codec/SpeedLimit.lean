import Routers.Codec.Condition
import Routers.Codec.Access

/-!
# Speed limits of lanes

A tag gives a speed limit for a whole way, or one for each lane, between bars.  The limits of the
lanes are kept in a list, and a lane asks for its limit by its number.  Lanes are numbered from
one, and places in the list from zero.

## Main definitions

* `SpeedPatterns` — what the patterns of the program find in a text.
* `PossiblyConditionalSpeedLimit.parse`, `SpeedLimitEntry.parseTag` — the parsers.
* `relevantLimits` — the limits that apply.
* `LanesReached` — each lane gets the limit of its own segment.

## Main results

* `lanesReached_iff` — **which tags give each lane its own limit.**

## References

`src/libs/routers_codec/src/osm/parsers/speed_limit/limit.rs`,
`src/libs/routers_codec/src/osm/parsers/speed_limit/collection.rs` and
`src/libs/routers_codec/src/osm/parsers/primitives/speed.rs`.
-/

namespace Routers

open Text Outcome

/-- What the patterns of the program find in a text: what is between the first parentheses, and
the number and the unit at the beginning. -/
structure SpeedPatterns where
  condition : List Char → Option (List Char)
  value : List Char → Option (Option (List Char) × Option (List Char))

/-- What the patterns find in ASCII. -/
def SpeedPatterns.ascii : SpeedPatterns where
  condition := go
  value s :=
    let digits := (s.dropWhile isWhitespace).takeWhile Char.isDigit
    let rest := ((s.dropWhile isWhitespace).dropWhile Char.isDigit).dropWhile isWhitespace
    let unit := rest.takeWhile fun c => !isWhitespace c && c != '('
    if digits = [] then none else some (some digits, if unit = [] then none else some unit)
where
  go : List Char → Option (List Char)
    | [] => none
    | c :: s =>
      let between := s.takeWhile fun d => d != ')'
      if c = '(' ∧ between ≠ [] ∧ ')' ∈ s then some between else go s

/-- A speed in one of the units, or what stands for a number. -/
inductive SpeedValue
  | kmh (speed : ℕ)
  | mph (speed : ℕ)
  | knots (speed : ℕ)
  | none
  | variable_
  | inherited
  | walk
  deriving DecidableEq, Repr

/-- A number of 16 bits other than zero. -/
def parseSpeed (s : List Char) : Option ℕ := (parseUint 65535 s).filter fun speed => speed ≠ 0

/-- The speed of a number and a unit; without a unit that is known it is in kilometres an hour. -/
def SpeedValue.parse (value unit : List Char) : Option SpeedValue :=
  (parseSpeed value).map fun numeric =>
    if unit = "mph".toList then .mph numeric
    else if unit = "kph".toList then .kmh numeric
    else if unit = "knots".toList then .knots numeric
    else if unit = "variable".toList then .variable_
    else if unit = "inherited".toList then .inherited
    else if unit = "none".toList then .none
    else if unit = "walk".toList then .walk
    else .kmh numeric

/-- A speed, and the condition under which it is the limit. -/
structure PossiblyConditionalSpeedLimit (F : Type) where
  speed : SpeedValue
  condition : Option (ConditionType F)
  deriving DecidableEq, Repr

/-- One limit for the way, or a list of them for its lanes. -/
inductive SpeedLimitVariant (F : Type)
  | blanket (limit : PossiblyConditionalSpeedLimit F)
  | perLane (limits : List (Option (PossiblyConditionalSpeedLimit F)))
  deriving DecidableEq, Repr

/-- The limits of a tag, and for whom and where they hold. -/
structure SpeedLimitEntry (F : Type) where
  restriction : RestrictionOptionals
  limit : SpeedLimitVariant F
  deriving DecidableEq, Repr

/-- Lanes are numbered by bytes other than zero. -/
abbrev LaneNumber := {n : ℕ // 0 < n ∧ n ≤ 255}

/-- What is asked of the limits: a directionality, and a lane. -/
structure SpeedLimitConditions where
  directionality : Directionality
  lane : Option LaneNumber

variable {F : Type} (env : Runtime F) (patterns : SpeedPatterns)

/-! ### The parsers -/

namespace PossiblyConditionalSpeedLimit

/-- The condition in parentheses; a text that the parser of conditions rejects is none. -/
def parseCondition (value : List Char) : Outcome (Option (ConditionType F)) :=
  match patterns.condition value with
  | none => .ok none
  | some condition => (some <$> Condition.parse env condition).orElse (.ok none)

/-- The speed at the beginning of a text, in any case. -/
def parseSpeedValue (value : List Char) : Option SpeedValue := do
  let (value, unit) ← patterns.value value
  SpeedValue.parse (env.toLowercase (value.getD [])) (env.toLowercase (unit.getD []))

/-- The limit of a segment; an empty one gives none, and so does one without a speed. -/
def parse (value : List Char) : Outcome (Option (PossiblyConditionalSpeedLimit F)) :=
  if value = [] then .ok none
  else do
    let condition ← parseCondition env patterns value
    return (parseSpeedValue env patterns value).map fun speed => ⟨speed, condition⟩

end PossiblyConditionalSpeedLimit

open PossiblyConditionalSpeedLimit

/-- The limits of a tag: of its segments if the label speaks of lanes, and else of its text. -/
def SpeedLimitEntry.parseTag (label value : List Char) : Outcome (Option (SpeedLimitEntry F)) :=
  let restriction := Restriction.parse label
  if "lanes".toList <:+: label then do
    let limits ← (splitTerminator '|' value).mapM (parse env patterns)
    return some ⟨restriction, .perLane limits⟩
  else do
    let limit ← parse env patterns value
    return limit.map fun limit => ⟨restriction, .blanket limit⟩

/-! ### The query -/

/-- The restriction leaves open whatever it does not share with the trip. -/
def RestrictionOptionals.Matches (restriction : RestrictionOptionals)
    (runtime : OsmTripConfiguration) (conditions : SpeedLimitConditions) : Prop :=
  (∀ mode ∈ restriction.transportMode, mode = runtime.transportMode) ∧
    ∀ dir ∈ restriction.directionality, dir = conditions.directionality

/-- The limit that an entry gives a lane: the place in the list is the number of the lane. -/
def SpeedLimitEntry.limitAt (entry : SpeedLimitEntry F) (lane : Option LaneNumber) :
    Option (PossiblyConditionalSpeedLimit F) :=
  match entry.limit with
  | .blanket limit => some limit
  | .perLane limits => lane.bind fun lane => limits[lane.val]?.join

/-- The limits of the entries that concern the mode and the directionality. -/
def relevantLimits (entries : List (SpeedLimitEntry F)) (runtime : OsmTripConfiguration)
    (conditions : SpeedLimitConditions) : List (PossiblyConditionalSpeedLimit F) :=
  ((entries.filter fun entry =>
      entry.restriction.transportMode.all fun mode => mode = runtime.transportMode).filter
        fun entry => entry.restriction.directionality.all fun dir =>
          dir = conditions.directionality).filterMap
    fun entry => entry.limitAt conditions.lane

/-! ### Entries one by one -/

variable {env patterns}

/-- Entries are looked at one by one. -/
theorem relevantLimits_eq_flatMap (entries : List (SpeedLimitEntry F))
    (runtime : OsmTripConfiguration) (conditions : SpeedLimitConditions) :
    relevantLimits entries runtime conditions
      = entries.flatMap fun entry => relevantLimits [entry] runtime conditions := by
  induction entries with
  | nil => rfl
  | cons entry entries ih =>
    rw [List.flatMap_cons, ← ih]
    simp only [relevantLimits, ← List.filter_append, ← List.filterMap_append, List.singleton_append]

/-- An entry that matches gives the limit of the lane. -/
theorem relevantLimits_singleton {entry : SpeedLimitEntry F} {runtime : OsmTripConfiguration}
    {conditions : SpeedLimitConditions} (h : entry.restriction.Matches runtime conditions) :
    relevantLimits [entry] runtime conditions = (entry.limitAt conditions.lane).toList := by
  obtain ⟨hmode, hdir⟩ := h
  have hmode' : entry.restriction.transportMode.all (fun mode => mode = runtime.transportMode) := by
    simpa [Option.all_eq_true] using hmode
  have hdir' : entry.restriction.directionality.all
      (fun dir => dir = conditions.directionality) := by
    simpa [Option.all_eq_true] using hdir
  simp only [relevantLimits, List.filter_cons, hmode', hdir', if_true, List.filter_nil]
  cases hlimit : entry.limitAt conditions.lane with
  | none => simp [hlimit]
  | some limit => simp [hlimit]

/-- Every restriction is matched by some trip, in any lane. -/
theorem exists_matches (restriction : RestrictionOptionals) (lane : LaneNumber) :
    ∃ runtime conditions, restriction.Matches runtime conditions ∧
      conditions.lane = some lane := by
  refine ⟨⟨restriction.transportMode.getD .all, false⟩,
    ⟨restriction.directionality.getD .bothWays, some lane⟩, ⟨?_, ?_⟩, rfl⟩
  · intro mode hmode
    rw [hmode]
    rfl
  · intro dir hdir
    rw [hdir]
    rfl

/-! ### Segments -/

theorem mapM_outcome_eq_ok_iff {α β : Type} {f : α → Outcome β} {l : List α} {l' : List β} :
    l.mapM f = .ok l' ↔ List.Forall₂ (fun a b => f a = .ok b) l l' :=
  mapM_eq_pure_iff Outcome.ok.inj fun h => Outcome.bind_eq_ok_iff.mp h

theorem parse_ne_err (segment : List Char) (e : ParseError) :
    parse env patterns segment ≠ .err e := by
  unfold parse parseCondition
  split_ifs
  · simp
  · split
    · simp
    · cases hcondition : Condition.parse env _ with
      | ok condition => simp
      | err e' => simp
      | panicked => simp

variable (env patterns)

/-- The limit of a segment, by its place; past the end there is none. -/
def segmentLimit (segments : List (List Char)) (k : ℕ) :
    Outcome (Option (PossiblyConditionalSpeedLimit F)) :=
  segments[k]?.elim (.ok none) (parse env patterns)

/-- **Each lane gets the limit of its own segment**: the tag is read as a limit for each segment,
and the entry gives every trip that it concerns in a lane the limit of the segment with the lane's
number, counted from one. -/
def LanesReached (label value : List Char) : Prop :=
  ∃ limits, SpeedLimitEntry.parseTag env patterns label value
      = .ok (some ⟨Restriction.parse label, .perLane limits⟩) ∧
    List.Forall₂ (fun segment limit => parse env patterns segment = .ok limit)
      (value.splitOn '|') limits ∧
    ∀ runtime conditions (lane : LaneNumber), (Restriction.parse label).Matches runtime conditions →
      conditions.lane = some lane → lane.val ≤ (value.splitOn '|').length →
        relevantLimits [⟨Restriction.parse label, .perLane limits⟩] runtime conditions
          = limits[lane.val - 1]?.join.toList

variable {env patterns}

theorem segmentLimit_eq {segments : List (List Char)}
    {limits : List (Option (PossiblyConditionalSpeedLimit F))}
    (h : List.Forall₂ (fun segment limit => parse env patterns segment = .ok limit) segments limits)
    (k : ℕ) : segmentLimit env patterns segments k = .ok limits[k]?.join := by
  induction h generalizing k with
  | nil => rfl
  | cons hsegment _ ih =>
    cases k with
    | zero => simpa [segmentLimit] using hsegment
    | succ k => simpa [segmentLimit] using ih k

/-- Segments that do not panic each have a limit, or none. -/
theorem exists_limits {segments : List (List Char)}
    (h : ∀ segment ∈ segments, parse env patterns segment ≠ .panicked) :
    ∃ limits, List.Forall₂ (fun segment limit => parse env patterns segment = .ok limit)
      segments limits := by
  induction segments with
  | nil => exact ⟨[], .nil⟩
  | cons segment segments ih =>
    obtain ⟨hsegment, hsegments⟩ := List.forall_mem_cons.mp h
    obtain ⟨limits, hlimits⟩ := ih hsegments
    cases hparse : parse env patterns segment with
    | ok limit => exact ⟨limit :: limits, .cons hparse hlimits⟩
    | err e => exact absurd hparse (parse_ne_err segment e)
    | panicked => exact absurd hparse hsegment

/-- A tag for lanes is read segment by segment. -/
theorem parseTag_lanes {label value : List Char} (hlabel : "lanes".toList <:+: label) :
    SpeedLimitEntry.parseTag env patterns label value = (do
      let limits ← (splitTerminator '|' value).mapM (parse env patterns)
      return some ⟨Restriction.parse label, .perLane limits⟩) :=
  if_pos hlabel

/-- The segments that are read. -/
theorem parseTag_eq_ok_iff {label value : List Char} (hlabel : "lanes".toList <:+: label)
    {limits : List (Option (PossiblyConditionalSpeedLimit F))} :
    SpeedLimitEntry.parseTag env patterns label value
        = .ok (some ⟨Restriction.parse label, .perLane limits⟩) ↔
      List.Forall₂ (fun segment limit => parse env patterns segment = .ok limit)
        (splitTerminator '|' value) limits := by
  rw [← mapM_outcome_eq_ok_iff]
  rw [parseTag_lanes hlabel, Outcome.bind_eq_ok_iff]
  constructor
  · rintro ⟨limits', hlimits, h⟩
    cases h
    exact hlimits
  · intro h
    exact ⟨limits, h, rfl⟩

/-- A text whose last segment is empty has one segment more than is read. -/
theorem splitTerminator_eq_iff {value : List Char} :
    (splitTerminator '|' value).length = (value.splitOn '|').length ↔
      (value.splitOn '|').getLast? ≠ some [] := by
  have hpos := List.length_pos_of_ne_nil (List.splitOn_ne_nil '|' value)
  simp only [splitTerminator]
  split_ifs with h
  · simp [h]
    omega
  · simp [h]

/-- The limit that a query finds for a lane is that of the segment after the lane's own. -/
theorem relevantLimits_lane {restriction : RestrictionOptionals} {runtime : OsmTripConfiguration}
    {conditions : SpeedLimitConditions} {lane : LaneNumber}
    {limits : List (Option (PossiblyConditionalSpeedLimit F))}
    (hmatches : restriction.Matches runtime conditions) (hlane : conditions.lane = some lane) :
    relevantLimits [⟨restriction, .perLane limits⟩] runtime conditions
      = limits[lane.val]?.join.toList := by
  rw [relevantLimits_singleton hmatches, SpeedLimitEntry.limitAt, hlane]
  rfl

theorem toList_injective {α : Type} {a b : Option α} (h : a.toList = b.toList) : a = b := by
  cases a <;> cases b <;> simp_all

/-- **Which tags give each lane its own limit**: those without a segment that panics, whose last
segment is not empty, and in which each of the first 255 segments has the same limit as the next,
the last one none. -/
theorem lanesReached_iff {label value : List Char} (hlabel : "lanes".toList <:+: label) :
    LanesReached env patterns label value ↔
      (∀ segment ∈ value.splitOn '|', parse env patterns segment ≠ .panicked) ∧
        (value.splitOn '|').getLast? ≠ some [] ∧
          ∀ k < (value.splitOn '|').length, k < 255 →
            segmentLimit env patterns (value.splitOn '|') k
              = segmentLimit env patterns (value.splitOn '|') (k + 1) := by
  constructor
  · rintro ⟨limits, htag, hlimits, hquery⟩
    have hread := (parseTag_eq_ok_iff hlabel).mp htag
    refine ⟨?_, ?_, ?_⟩
    · intro segment hsegment hpanic
      obtain ⟨limit, -, hlimit⟩ := exists_of_mem_left hlimits segment hsegment
      rw [hpanic] at hlimit
      cases hlimit
    · rw [← splitTerminator_eq_iff, hread.length_eq, hlimits.length_eq]
    · intro k hk hk255
      obtain ⟨runtime, conditions, hmatches, hlane⟩ :=
        exists_matches (Restriction.parse label) ⟨k + 1, Nat.succ_pos k, hk255⟩
      have heq := hquery runtime conditions _ hmatches hlane hk
      rw [relevantLimits_lane hmatches hlane] at heq
      rw [segmentLimit_eq hlimits, segmentLimit_eq hlimits, toList_injective heq]
      rfl
  · rintro ⟨hsafe, hlast, hnext⟩
    obtain ⟨limits, hlimits⟩ := exists_limits hsafe
    refine ⟨limits, ?_, hlimits, ?_⟩
    · rw [parseTag_eq_ok_iff hlabel, splitTerminator, if_neg hlast]
      exact hlimits
    · intro runtime conditions lane hmatches hlane hle
      obtain ⟨n, hpos, hmax⟩ := lane
      obtain ⟨k, rfl⟩ := Nat.exists_eq_succ_of_ne_zero hpos.ne'
      have heq := hnext k hle hmax
      rw [segmentLimit_eq hlimits, segmentLimit_eq hlimits, Outcome.ok.injEq] at heq
      rw [relevantLimits_lane hmatches hlane]
      exact congrArg Option.toList heq.symm

/-- Words in place of limits are no limits for any lane. -/
theorem words_lanesReached :
    LanesReached Runtime.whole .ascii "maxspeed:lanes".toList "fast|slow".toList := by
  refine (lanesReached_iff (by decide)).mpr ⟨by decide, by decide, ?_⟩
  decide +kernel

/-- The first of two lanes is given the limit of the second. -/
theorem fifty_sixty_not_lanesReached :
    ¬ LanesReached Runtime.whole .ascii "maxspeed:lanes".toList "50|60".toList := by
  rintro ⟨limits, htag, -, hquery⟩
  have hread : SpeedLimitEntry.parseTag Runtime.whole .ascii "maxspeed:lanes".toList "50|60".toList
      = .ok (some ⟨Restriction.parse "maxspeed:lanes".toList,
        .perLane [some ⟨.kmh 50, none⟩, some ⟨.kmh 60, none⟩]⟩) := by decide +kernel
  rw [hread] at htag
  cases htag
  have hmatches : (Restriction.parse "maxspeed:lanes".toList).Matches ⟨.motorcar, false⟩
      ⟨.bothWays, some ⟨1, by decide⟩⟩ := by
    have hnone : Restriction.parse "maxspeed:lanes".toList = ⟨none, none⟩ := by decide
    rw [hnone]
    exact ⟨by simp, by simp⟩
  have hlane := hquery _ _ ⟨1, by decide⟩ hmatches rfl (by decide)
  rw [relevantLimits_lane hmatches rfl] at hlane
  exact absurd hlane (by decide)

end Routers
