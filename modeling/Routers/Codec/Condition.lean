import Routers.Codec.OpeningHoursText

/-!
# Conditions of restrictions

A restriction may hold under a condition: at some hours, in a season, for heavy vehicles.  The
parser tries the grammars of the several kinds one after the other.  It looks for the operators
of combined conditions in an upper-case copy of the text, and cuts the text itself at the offset
found there; the halves are conditions again.

## Main definitions

* `Outcome`, `Runtime` — what a call comes to, and what the parser uses of its runtime.
* `ConditionType`, `ConditionType.display` — the conditions, and how they are printed.
* `Condition.parse` — the parser.

## Main results

* `Condition.parse_eq` — the parser, by its own halves.
* `Condition.parse_ne_err` — the parser returns no error.

## References

`src/libs/routers_codec/src/osm/parsers/primitives/condition.rs`.
-/

namespace Routers

open Text

/-! ### Outcomes -/

/-- Which grammar a text is not of, or which part of it is not known. -/
inductive ParseError
  | notTimeDate | notSeason | notRoadCondition | notVehicleProperty | notVehicleUsage | notUserGroup
  | notPurpose | notStayDuration | notCombinedCondition | unknownVehicleProperty | unknownOperator
  | invalidNumber | invalidDuration | invalidDurationUnit
  deriving DecidableEq, Repr

/-- What a call comes to: a result, an error, or a panic. -/
inductive Outcome (α : Type)
  | ok (a : α)
  | err (e : ParseError)
  | panicked
  deriving DecidableEq, Repr

namespace Outcome

variable {α β : Type}

/-- Go on with a result; an error or a panic ends the call. -/
protected def bind : Outcome α → (α → Outcome β) → Outcome β
  | ok a, f => f a
  | err e, _ => err e
  | panicked, _ => panicked

instance : Monad Outcome where
  pure := ok
  bind := Outcome.bind

/-- The next grammar is tried after an error. -/
def orElse : Outcome α → Outcome α → Outcome α
  | err _, next => next
  | r, _ => r

/-- A slice out of bounds panics. -/
def orPanic : Option α → Outcome α
  | some a => ok a
  | none => panicked

/-- A value that is missing is an error. -/
def orErr (e : ParseError) : Option α → Outcome α
  | some a => ok a
  | none => err e

@[simp] theorem ok_bind (a : α) (f : α → Outcome β) : (ok a >>= f) = f a := rfl

@[simp] theorem err_bind (e : ParseError) (f : α → Outcome β) : (err e >>= f) = err e := rfl

@[simp] theorem panicked_bind (f : α → Outcome β) : (panicked >>= f) = panicked := rfl

@[simp] theorem pure_eq (a : α) : (pure a : Outcome α) = ok a := rfl

instance : LawfulMonad Outcome :=
  LawfulMonad.mk' Outcome (fun x => by cases x <;> rfl) (fun _ _ => rfl)
    (fun x _ _ => by cases x <;> rfl)

@[simp] theorem map_ok (f : α → β) (a : α) : f <$> ok a = ok (f a) := rfl

@[simp] theorem map_err (f : α → β) (e : ParseError) : f <$> (err e : Outcome α) = err e := rfl

@[simp] theorem map_panicked (f : α → β) : f <$> (panicked : Outcome α) = panicked := rfl

@[simp] theorem orElse_ok (a : α) (next : Outcome α) : (ok a).orElse next = ok a := rfl

@[simp] theorem orElse_err (e : ParseError) (next : Outcome α) : (err e).orElse next = next := rfl

@[simp] theorem orElse_panicked (next : Outcome α) : panicked.orElse next = panicked := rfl

@[simp] theorem orPanic_some (a : α) : orPanic (some a) = ok a := rfl

@[simp] theorem orPanic_none : orPanic (none : Option α) = panicked := rfl

@[simp] theorem orErr_some (e : ParseError) (a : α) : orErr e (some a) = ok a := rfl

@[simp] theorem orErr_none (e : ParseError) : orErr e (none : Option α) = err e := rfl

@[simp] theorem orErr_ne_panicked {e : ParseError} {o : Option α} : orErr e o ≠ panicked := by
  cases o <;> simp

@[simp] theorem orErr_eq_ok_iff {e : ParseError} {o : Option α} {a : α} :
    orErr e o = ok a ↔ o = some a := by
  cases o <;> simp

@[simp] theorem orPanic_eq_ok_iff {o : Option α} {a : α} : orPanic o = ok a ↔ o = some a := by
  cases o <;> simp

@[simp] theorem orPanic_eq_panicked_iff {o : Option α} : orPanic o = panicked ↔ o = none := by
  cases o <;> simp

theorem bind_eq_ok_iff {x : Outcome α} {f : α → Outcome β} {b : β} :
    x >>= f = ok b ↔ ∃ a, x = ok a ∧ f a = ok b := by
  cases x <;> simp

theorem bind_eq_panicked_iff {x : Outcome α} {f : α → Outcome β} :
    x >>= f = panicked ↔ x = panicked ∨ ∃ a, x = ok a ∧ f a = panicked := by
  cases x <;> simp

theorem bind_eq_err_iff {x : Outcome α} {f : α → Outcome β} {e : ParseError} :
    x >>= f = err e ↔ x = err e ∨ ∃ a, x = ok a ∧ f a = err e := by
  cases x <;> simp

@[simp] theorem orPanic_ne_err {o : Option α} {e : ParseError} : orPanic o ≠ err e := by
  cases o <;> simp

theorem map_eq_ok_iff {x : Outcome α} {f : α → β} {b : β} :
    f <$> x = ok b ↔ ∃ a, x = ok a ∧ f a = b := by
  cases x <;> simp

@[simp] theorem map_eq_panicked_iff {x : Outcome α} {f : α → β} :
    f <$> x = panicked ↔ x = panicked := by
  cases x <;> simp

end Outcome

open Outcome

/-! ### Conditions -/

/-- What the parser uses of its runtime: the tables of Unicode, and numbers with a fraction. -/
structure Runtime (F : Type) extends Unicode where
  parseFloat : List Char → Option F
  displayFloat : F → List Char
  beqFloat : F → F → Bool
  beqFloat_symm : ∀ x y, beqFloat x y → beqFloat y x
  beqFloat_trans : ∀ x y z, beqFloat x y → beqFloat y z → beqFloat x z
  displayFloat_ne_nil : ∀ x, displayFloat x ≠ []
  displayFloat_chars : ∀ x, ∀ c ∈ displayFloat x, c.isAlphanum ∨ c = '.' ∨ c = '-'
  parseFloat_displayFloat : ∀ x, beqFloat x x →
    ∃ y, parseFloat (displayFloat x) = some y ∧ beqFloat y x

/-- A runtime of ASCII and whole numbers. -/
def Runtime.whole : Runtime ℕ where
  toUnicode := Unicode.ascii
  parseFloat s :=
    if s.isEmpty || !s.all Char.isDigit then none else some (Nat.ofDigitChars 10 s 0)
  displayFloat := Nat.toDigits 10
  beqFloat x y := decide (x = y)
  beqFloat_symm x y h := by simpa [eq_comm] using h
  beqFloat_trans x y z hxy hyz := by simp_all
  displayFloat_ne_nil _ := Nat.toDigits_ne_nil
  displayFloat_chars x c hc := by
    have hdigit : c.isDigit := Nat.isDigit_of_mem_toDigits (by decide) (by decide) hc
    simp [Char.isAlphanum, hdigit]
  parseFloat_displayFloat x _ := by
    have hdigits : (Nat.toDigits 10 x).all Char.isDigit := List.all_eq_true.mpr fun _ hc =>
      Nat.isDigit_of_mem_toDigits (by decide) (by decide) hc
    refine ⟨x, ?_, by simp⟩
    rw [hdigits, Nat.ofDigitChars_ten_toDigits]
    simp [Nat.toDigits_ne_nil]

/-- The value of an enumeration with a given name. -/
def fromName {α : Type} (values : List α) (name : α → String) (s : List Char) : Option α :=
  values.find? fun value => (name value).toList = s

theorem name_of_fromName {α : Type} {values : List α} {name : α → String} {s : List Char} {a : α}
    (h : fromName values name s = some a) : (name a).toList = s := by
  simpa using List.find?_some h

/-- A text is no name, if it has a character that no name has. -/
theorem fromName_eq_none {α : Type} {values : List α} {name : α → String} {s : List Char} {c : Char}
    (hc : c ∈ s) (h : ∀ a, c ∉ (name a).toList) : fromName values name s = none := by
  cases hfound : fromName values name s with
  | none => rfl
  | some a =>
    rw [← name_of_fromName hfound] at hc
    exact absurd hc (h a)

/-- In a season. -/
inductive SeasonCondition
  | winter | summer | spring | autumn
  deriving DecidableEq, Repr

/-- The season as it is printed. -/
def SeasonCondition.name : SeasonCondition → String
  | winter => "winter"
  | summer => "summer"
  | spring => "spring"
  | autumn => "autumn"

/-- The season that a text names. -/
def SeasonCondition.fromStr : List Char → Option SeasonCondition :=
  fromName [winter, summer, spring, autumn] name

/-- In a state of the road. -/
inductive RoadCondition
  | wet | dry | snow | ice | rain | fog
  deriving DecidableEq, Repr

/-- The state as it is printed. -/
def RoadCondition.name : RoadCondition → String
  | wet => "wet"
  | dry => "dry"
  | snow => "snow"
  | ice => "ice"
  | rain => "rain"
  | fog => "fog"

/-- The state that a text names. -/
def RoadCondition.fromStr : List Char → Option RoadCondition :=
  fromName [wet, dry, snow, ice, rain, fog] name

/-- What of a vehicle is measured. -/
inductive VehicleProperty
  | weight | axleload | length | width | height | wheels | draught
  deriving DecidableEq, Repr

/-- The property as it is printed. -/
def VehicleProperty.name : VehicleProperty → String
  | weight => "weight"
  | axleload => "axleload"
  | length => "length"
  | width => "width"
  | height => "height"
  | wheels => "wheels"
  | draught => "draught"

/-- The property that a text names. -/
def VehicleProperty.fromStr : List Char → Option VehicleProperty :=
  fromName [weight, axleload, length, width, height, wheels, draught] name

/-- How a number is compared. -/
inductive ComparisonOperator
  | lessThan | greaterThan | equal | lessThanOrEqual | greaterThanOrEqual
  deriving DecidableEq, Repr

/-- The comparison as it is printed. -/
def ComparisonOperator.name : ComparisonOperator → String
  | lessThan => "<"
  | greaterThan => ">"
  | equal => "="
  | lessThanOrEqual => "<="
  | greaterThanOrEqual => ">="

/-- The comparison of a sign. -/
def ComparisonOperator.fromStr : List Char → Option ComparisonOperator :=
  fromName [lessThan, greaterThan, equal, lessThanOrEqual, greaterThanOrEqual] name

/-- For a group of users. -/
inductive UserGroupCondition
  | doctor | disabled | emergency | female | residents | permit | staff | customers
  deriving DecidableEq, Repr

/-- The group as it is printed. -/
def UserGroupCondition.name : UserGroupCondition → String
  | doctor => "doctor"
  | disabled => "disabled"
  | emergency => "emergency"
  | female => "female"
  | residents => "residents"
  | permit => "permit"
  | staff => "staff"
  | customers => "customers"

/-- The group that a text names. -/
def UserGroupCondition.fromStr : List Char → Option UserGroupCondition :=
  fromName [doctor, disabled, emergency, female, residents, permit, staff, customers] name

/-- For a purpose. -/
inductive PurposeCondition
  | destination | delivery | customers | forestry | agricultural | private_ | permit
  deriving DecidableEq, Repr

/-- The purpose as it is printed. -/
def PurposeCondition.name : PurposeCondition → String
  | destination => "destination"
  | delivery => "delivery"
  | customers => "customers"
  | forestry => "forestry"
  | agricultural => "agricultural"
  | private_ => "private"
  | permit => "permit"

/-- The purpose that a text names. -/
def PurposeCondition.fromStr : List Char → Option PurposeCondition :=
  fromName [destination, delivery, customers, forestry, agricultural, private_, permit] name

/-- What a stay is counted in. -/
inductive DurationUnit
  | minutes | hours | days
  deriving DecidableEq, Repr

/-- The unit as it is printed. -/
def DurationUnit.name : DurationUnit → String
  | minutes => "minutes"
  | hours => "hours"
  | days => "days"

/-- How two conditions are combined. -/
inductive LogicalOperator
  | and | or
  deriving DecidableEq, Repr

/-- The operator as it is printed. -/
def LogicalOperator.name : LogicalOperator → String
  | and => "AND"
  | or => "OR"

/-- At some hours, perhaps with a comment in quotation marks. -/
structure TimeDateCondition where
  openingHours : OpeningHours
  comment : Option (List Char)
  deriving DecidableEq, Repr

/-- For vehicles a property of which compares so with a number, perhaps in a unit. -/
structure VehiclePropertyCondition (F : Type) where
  property : VehicleProperty
  operator : ComparisonOperator
  value : F
  unit : Option (List Char)
  deriving DecidableEq, Repr

/-- For vehicles by what they carry; a text of no other grammar is a load. -/
inductive VehicleUsageCondition
  | occupants (operator : ComparisonOperator) (count : ℕ)
  | hazmat
  | load (load : List Char)
  deriving DecidableEq, Repr

/-- So many of a unit. -/
structure Duration where
  value : ℕ
  unit : DurationUnit
  deriving DecidableEq, Repr

/-- For stays whose length compares so with a duration. -/
structure StayDurationCondition where
  operator : ComparisonOperator
  duration : Duration
  deriving DecidableEq, Repr

/-- A condition is given by its type. -/
inductive ConditionType (F : Type)
  | timeDate (condition : TimeDateCondition)
  | season (season : SeasonCondition)
  | roadCondition (road : RoadCondition)
  | vehicleProperty (condition : VehiclePropertyCondition F)
  | vehicleUsage (usage : VehicleUsageCondition)
  | userGroup (group : UserGroupCondition)
  | purpose (purpose : PurposeCondition)
  | stayDuration (condition : StayDurationCondition)
  | combined (left : ConditionType F) (operator : LogicalOperator) (right : ConditionType F)
  | raw (raw : List Char)
  deriving DecidableEq, Repr

variable {F : Type} (env : Runtime F)

namespace ConditionType

/-- The printer. -/
def display : ConditionType F → List Char
  | timeDate td =>
    match td.comment with
    | some comment => td.openingHours.display ++ ' ' :: '"' :: comment ++ ['"']
    | none => td.openingHours.display
  | season s => s.name.toList
  | roadCondition road => road.name.toList
  | vehicleProperty vp =>
    vp.property.name.toList ++ vp.operator.name.toList ++ env.displayFloat vp.value ++
      vp.unit.getD []
  | vehicleUsage usage =>
    match usage with
    | .occupants operator count =>
      "occupants".toList ++ operator.name.toList ++ Nat.toDigits 10 count
    | .hazmat => "hazmat".toList
    | .load load => load
  | userGroup group => group.name.toList
  | purpose p => p.name.toList
  | stayDuration sd =>
    "stay ".toList ++ sd.operator.name.toList ++ ' ' :: Nat.toDigits 10 sd.duration.value ++
      ' ' :: sd.duration.unit.name.toList
  | combined left operator right =>
    display left ++ ' ' :: operator.name.toList ++ ' ' :: display right
  | raw r => r

variable {env}

theorem display_vehicleProperty (vp : VehiclePropertyCondition F) :
    (vehicleProperty vp).display env = vp.property.name.toList ++ vp.operator.name.toList ++
      env.displayFloat vp.value ++ vp.unit.getD [] := rfl

theorem display_occupants (operator : ComparisonOperator) (count : ℕ) :
    (vehicleUsage (.occupants operator count)).display env =
      "occupants".toList ++ operator.name.toList ++ Nat.toDigits 10 count := rfl

theorem display_combined (left right : ConditionType F) (operator : LogicalOperator) :
    (combined left operator right).display env =
      left.display env ++ ' ' :: operator.name.toList ++ ' ' :: right.display env := rfl

variable (env)

/-- The derived comparison, numbers compared as the runtime does. -/
def beq : ConditionType F → ConditionType F → Bool
  | timeDate a, timeDate b => decide (a = b)
  | season a, season b => decide (a = b)
  | roadCondition a, roadCondition b => decide (a = b)
  | vehicleProperty a, vehicleProperty b =>
    decide (a.property = b.property) && decide (a.operator = b.operator) &&
      env.beqFloat a.value b.value && decide (a.unit = b.unit)
  | vehicleUsage a, vehicleUsage b => decide (a = b)
  | userGroup a, userGroup b => decide (a = b)
  | purpose a, purpose b => decide (a = b)
  | stayDuration a, stayDuration b => decide (a = b)
  | combined l o r, combined l' o' r' => beq l l' && decide (o = o') && beq r r'
  | raw a, raw b => decide (a = b)
  | _, _ => false

end ConditionType

/-! ### The grammars -/

namespace Condition

/-- What precedes an offset, and what follows it. -/
def sliceTo? (s : List Char) (n : ℕ) : Option (List Char) := (splitAt? s n).map Prod.fst

/-- What follows an offset, none where the offset is no boundary. -/
def sliceFrom? (s : List Char) (n : ℕ) : Option (List Char) := (splitAt? s n).map Prod.snd

/-- The comparisons, in the order in which they are looked for. -/
def comparisons : List (List Char) :=
  ["<=".toList, ">=".toList, "<".toList, ">".toList, "=".toList]

/-- The first of the comparisons that occurs, and where. -/
def findComparison (s : List Char) : Option (List Char × ℕ) :=
  comparisons.findSome? fun op => (find op s).map fun pos => (op, pos)

/-- Opening hours, and what is between the first and the last quotation mark behind them. -/
def parseTimeDate (s : List Char) : Outcome TimeDateCondition :=
  match find ['"'] s with
  | some quoteStart => do
    let hours ← orPanic (sliceTo? s quoteStart)
    let commentEnd := (rfind '"' s).getD (utf8Len s)
    let comment ← orPanic (slice? s (quoteStart + 1) commentEnd)
    let openingHours ←
      orErr .notTimeDate (OpeningHoursParser.parse env.toUnicode (trim hours)).toOption
    return ⟨openingHours, some comment⟩
  | none => do
    let openingHours ← orErr .notTimeDate (OpeningHoursParser.parse env.toUnicode s).toOption
    return ⟨openingHours, none⟩

/-- The name of a season. -/
def parseSeason (s : List Char) : Outcome SeasonCondition :=
  orErr .notSeason (SeasonCondition.fromStr s)

/-- The name of a state of the road. -/
def parseRoadCondition (s : List Char) : Outcome RoadCondition :=
  orErr .notRoadCondition (RoadCondition.fromStr s)

/-- The characters of a value that are counted as those of its number. -/
def numberRun (s : List Char) : List Char := s.takeWhile fun c => env.isNumeric c || c == '.'

/-- A number, or a number and a unit.  The length of the number is counted in characters, and
used as an offset in bytes. -/
def parseValueWithUnit (s : List Char) : Outcome (F × Option (List Char)) :=
  match env.parseFloat s with
  | some value => .ok (value, none)
  | none =>
    let numberEnd := (numberRun env s).length
    if numberEnd > 0 then do
      let numberStr ← orPanic (sliceTo? s numberEnd)
      let unitStr ← orPanic (sliceFrom? s numberEnd)
      let value ← orErr .invalidNumber (env.parseFloat numberStr)
      return (value, if trim unitStr = [] then none else some (trim unitStr))
    else .err .invalidNumber

/-- A property, a comparison, a number and perhaps a unit. -/
def parseVehicleProperty (s : List Char) : Outcome (VehiclePropertyCondition F) :=
  match findComparison s with
  | some (op, pos) => do
    let propertyStr ← orPanic (sliceTo? s pos)
    let valueStr ← orPanic (sliceFrom? s (pos + utf8Len op))
    let property ← orErr .unknownVehicleProperty (VehicleProperty.fromStr (trim propertyStr))
    let operator ← orErr .unknownOperator (ComparisonOperator.fromStr op)
    let (value, unit) ← parseValueWithUnit env (trim valueStr)
    return ⟨property, operator, value, unit⟩
  | none => .err .notVehicleProperty

/-- The greatest 32-bit number. -/
def maxU32 : ℕ := 2 ^ 32 - 1

/-- Dangerous goods, a number of occupants, or any text as a load; so no grammar behind this one is
ever tried, unless the number of occupants is in error. -/
def parseVehicleUsage (s : List Char) : Outcome VehicleUsageCondition :=
  if s = "hazmat".toList then .ok .hazmat
  else
    match s.dropPrefix? "occupants".toList with
    | some rest =>
      match findComparison rest with
      | some (op, pos) => do
        let operator ← orErr .unknownOperator (ComparisonOperator.fromStr op)
        let countStr ← orPanic (sliceFrom? rest (pos + utf8Len op))
        let count ← orErr .invalidNumber (parseUint maxU32 (trim countStr))
        return .occupants operator count
      | none => .ok (.load s)
    | none => .ok (.load s)

/-- The name of a group of users. -/
def parseUserGroup (s : List Char) : Outcome UserGroupCondition :=
  orErr .notUserGroup (UserGroupCondition.fromStr s)

/-- The name of a purpose. -/
def parsePurpose (s : List Char) : Outcome PurposeCondition :=
  orErr .notPurpose (PurposeCondition.fromStr s)

/-- A unit in the singular or the plural. -/
def parseDurationUnit (s : List Char) : Option DurationUnit :=
  if s = "minute".toList ∨ s = "minutes".toList then some .minutes
  else if s = "hour".toList ∨ s = "hours".toList then some .hours
  else if s = "day".toList ∨ s = "days".toList then some .days
  else none

/-- A number and a unit. -/
def parseDuration (s : List Char) : Outcome Duration :=
  match splitWhitespace s with
  | [value, unit] => do
    let value ← orErr .invalidNumber (parseUint maxU32 value)
    let unit ← orErr .invalidDurationUnit (parseDurationUnit (env.toLowercase unit))
    return ⟨value, unit⟩
  | _ => .err .invalidDuration

/-- A comparison and a duration, led by the word for a stay. -/
def parseStayDuration (s : List Char) : Outcome StayDurationCondition :=
  if "stay".toList <+: s then do
    let rest ← orPanic (sliceFrom? s 4)
    match findComparison (trim rest) with
    | some (op, pos) => do
      let operator ← orErr .unknownOperator (ComparisonOperator.fromStr op)
      let durationStr ← orPanic (sliceFrom? (trim rest) (pos + utf8Len op))
      let duration ← parseDuration env (trim durationStr)
      return ⟨operator, duration⟩
    | none => .err .notStayDuration
  else .err .notStayDuration

/-- The operator that combines two conditions, and where it is in the upper-case copy. -/
def findOperator (s : List Char) : Option (LogicalOperator × ℕ) :=
  let upper := env.uppercase s
  match find " AND ".toList upper with
  | some pos => some (.and, pos)
  | none => (find " OR ".toList upper).map fun pos => (.or, pos)

/-- The operator as it is looked for, between blanks. -/
def token (operator : LogicalOperator) : List Char := ' ' :: operator.name.toList ++ [' ']

/-- Two conditions around an operator: the text is cut where its upper-case copy has it. -/
def parseCombinedCondition (parse : List Char → Outcome (ConditionType F)) (s : List Char) :
    Outcome (ConditionType F) :=
  match findOperator env s with
  | some (operator, pos) => do
    let left ← orPanic (sliceTo? s pos)
    let right ← orPanic (sliceFrom? s (pos + utf8Len (token operator)))
    let left ← parse (trim left)
    let right ← parse (trim right)
    return .combined left operator right
  | none => .err .notCombinedCondition

/-! ### The parser -/

/-- The text without blanks around it, and without parentheses around that. -/
def cleaned (s : List Char) : Option (List Char) :=
  let trimmed := trim s
  if trimmed.head? = some '(' ∧ trimmed.getLast? = some ')' then
    slice? trimmed 1 (utf8Len trimmed - 1)
  else some trimmed

/-- The grammars in their order, for a text that is cleaned. -/
def dispatch (parse : List Char → Outcome (ConditionType F)) (cleaned : List Char) :
    Outcome (ConditionType F) :=
  (parseCombinedCondition env parse cleaned).orElse <|
  (.timeDate <$> parseTimeDate env cleaned).orElse <|
  (.season <$> parseSeason cleaned).orElse <|
  (.roadCondition <$> parseRoadCondition cleaned).orElse <|
  (.vehicleProperty <$> parseVehicleProperty env cleaned).orElse <|
  (.vehicleUsage <$> parseVehicleUsage cleaned).orElse <|
  (.userGroup <$> parseUserGroup cleaned).orElse <|
  (.purpose <$> parsePurpose cleaned).orElse <|
  (.stayDuration <$> parseStayDuration env cleaned).orElse <|
  .ok (.raw cleaned)

/-- The parser, its halves parsed to some depth. -/
def parseTo : ℕ → List Char → Outcome (ConditionType F)
  | 0, _ => .panicked
  | depth + 1, s => do
    let cleaned ← orPanic (cleaned s)
    dispatch env (parseTo depth) cleaned

/-- The parser: the halves of a text are shorter than the text. -/
def parse (s : List Char) : Outcome (ConditionType F) := parseTo env (s.length + 1) s

/-! ### The parser by its halves -/

variable {env}

/-- The text that the grammars are given. -/
def clean (s : List Char) : List Char :=
  let trimmed := trim s
  if trimmed.head? = some '(' ∧ trimmed.getLast? = some ')' then trimmed.tail.dropLast else trimmed

/-- A text in parentheses has something between them. -/
theorem exists_between {s : List Char} (h : s.head? = some '(' ∧ s.getLast? = some ')') :
    ∃ mid, s = '(' :: mid ++ [')'] := by
  obtain ⟨init, rfl⟩ := List.getLast?_eq_some_iff.mp h.2
  cases init with
  | nil => exact absurd h.1 (by decide)
  | cons c mid =>
    have hc : c = '(' := by simpa using h.1
    exact ⟨mid, by rw [hc]⟩

/-- The parentheses are cut off without a panic. -/
theorem cleaned_eq (s : List Char) : cleaned s = some (clean s) := by
  simp only [cleaned, clean]
  split_ifs with h
  · obtain ⟨mid, hmid⟩ := exists_between h
    have hlen : utf8Len ('(' :: mid ++ [')']) - 1 = utf8Len (['('] ++ mid) := by
      rw [utf8Len_append]
      rfl
    have hslice : slice? ('(' :: mid ++ [')']) 1 (utf8Len (['('] ++ mid)) = some mid :=
      slice?_append (a := ['(']) (t := mid) (b := [')'])
    rw [hmid, hlen, hslice]
    simp
  · rfl

theorem length_clean_le (s : List Char) : (clean s).length ≤ s.length := by
  have htrim := length_trim_le (s := s)
  simp only [clean]
  split_ifs
  · rw [List.length_dropLast, List.length_tail]
    omega
  · exact htrim

theorem sliceTo?_eq_some_iff {s t : List Char} {n : ℕ} :
    sliceTo? s n = some t ↔ t <+: s ∧ utf8Len t = n := by
  simp only [sliceTo?, Option.map_eq_some_iff, Prod.exists, splitAt?_eq_some_iff]
  constructor
  · rintro ⟨a, b, ⟨rfl, rfl⟩, rfl⟩
    exact ⟨⟨b, rfl⟩, rfl⟩
  · rintro ⟨⟨b, rfl⟩, rfl⟩
    exact ⟨t, b, ⟨rfl, rfl⟩, rfl⟩

theorem sliceFrom?_eq_some_iff {s t : List Char} {n : ℕ} :
    sliceFrom? s n = some t ↔ ∃ a, s = a ++ t ∧ utf8Len a = n := by
  simp only [sliceFrom?, Option.map_eq_some_iff, Prod.exists, splitAt?_eq_some_iff]
  constructor
  · rintro ⟨a, b, ⟨rfl, rfl⟩, rfl⟩
    exact ⟨a, rfl, rfl⟩
  · rintro ⟨a, rfl, rfl⟩
    exact ⟨a, t, ⟨rfl, rfl⟩, rfl⟩

/-- **The halves of a text are shorter than the text.** -/
theorem length_half_lt {s left right : List Char} {pos : ℕ} {operator : LogicalOperator}
    (hleft : sliceTo? s pos = some left)
    (hright : sliceFrom? s (pos + utf8Len (token operator)) = some right) :
    (trim left).length < s.length ∧ (trim right).length < s.length := by
  obtain ⟨⟨b, hb⟩, rfl⟩ := sliceTo?_eq_some_iff.mp hleft
  obtain ⟨a, ha, hlen⟩ := sliceFrom?_eq_some_iff.mp hright
  have htoken : 0 < utf8Len (token operator) := by cases operator <;> decide
  have hb0 : b ≠ [] := by
    rintro rfl
    rw [List.append_nil] at hb
    rw [ha] at hb
    have := congrArg utf8Len hb
    simp at this
    omega
  have ha0 : a ≠ [] := by
    rintro rfl
    simp at hlen
    omega
  have hbpos := List.length_pos_of_ne_nil hb0
  have hapos := List.length_pos_of_ne_nil ha0
  have hs1 := congrArg List.length hb
  have hs2 := congrArg List.length ha
  rw [List.length_append] at hs1 hs2
  exact ⟨lt_of_le_of_lt length_trim_le (by omega), lt_of_le_of_lt length_trim_le (by omega)⟩

/-- What is done with a text depends on what is done with shorter ones only. -/
theorem dispatch_congr {parse parse' : List Char → Outcome (ConditionType F)} {s : List Char}
    (h : ∀ t, t.length < s.length → parse t = parse' t) :
    dispatch env parse s = dispatch env parse' s := by
  have hcombined : parseCombinedCondition env parse s = parseCombinedCondition env parse' s := by
    simp only [parseCombinedCondition]
    cases findOperator env s with
    | none => rfl
    | some found =>
      obtain ⟨operator, pos⟩ := found
      cases hleft : sliceTo? s pos with
      | none => simp [hleft]
      | some left =>
        cases hright : sliceFrom? s (pos + utf8Len (token operator)) with
        | none => simp [hleft, hright]
        | some right =>
          obtain ⟨hl, hr⟩ := length_half_lt hleft hright
          simp [hleft, hright, h _ hl, h _ hr]
  rw [dispatch, hcombined, dispatch]

theorem parseTo_eq {s : List Char} {n m : ℕ} (hn : s.length < n) (hm : s.length < m) :
    parseTo env n s = parseTo env m s := by
  induction n generalizing m s with
  | zero => exact absurd hn (Nat.not_lt_zero _)
  | succ n ih =>
    obtain ⟨m, rfl⟩ := Nat.exists_eq_succ_of_ne_zero (Nat.ne_zero_of_lt hm)
    simp only [parseTo, cleaned_eq, orPanic_some, ok_bind]
    have hle := length_clean_le s
    exact dispatch_congr fun t ht => ih (by omega) (by omega)

/-- **The parser, by its own halves.** -/
theorem parse_eq (s : List Char) : parse env s = dispatch env (parse env) (clean s) := by
  have hle := length_clean_le s
  rw [parse, parseTo, cleaned_eq]
  exact dispatch_congr fun t ht => parseTo_eq (by omega) (by omega)

theorem orElse_ne_err {α : Type} {x y : Outcome α} {e : ParseError} (h : y ≠ .err e) :
    x.orElse y ≠ .err e := by
  cases x <;> simp [h]

/-- The parser returns no error. -/
theorem parse_ne_err (s : List Char) (e : ParseError) : parse env s ≠ .err e := by
  rw [parse_eq, dispatch]
  repeat refine orElse_ne_err ?_
  simp

end Condition

end Routers
