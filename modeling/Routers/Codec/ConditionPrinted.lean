import Routers.Codec.ConditionText

/-!
# Conditions read back

For each grammar, what it reads of the conditions that it has returned, once these are printed.
A unit is written directly behind its number; whether the two are told apart again depends on
the characters that meet.

## Main definitions

* `Condition.ReadBack` — a condition that is printed is read as an equal one.
* `Condition.LegibleValue`, `Condition.LegibleProperty` — the values and properties that are legible.

## Main results

* `Condition.parseValueWithUnit_display_iff` — which values are read back.
* `Condition.readBack_vehicleProperty_iff`, `Condition.readBack_timeDate_iff` — **which properties
  and which times are read back.**
* `Condition.readBack_occupants`, `Condition.readBack_verbatim_iff` — what is kept is read back.
* `Condition.readBack_combined_iff` — a combined condition is read back as its halves are.

## References

`src/libs/routers_codec/src/osm/parsers/primitives/condition.rs`.
-/

namespace Routers

open Text Outcome

namespace Condition

variable {F : Type} {env : Runtime F} {s c u : List Char} {v : F}

/-- A condition that is printed is read as an equal one. -/
def ReadBack (env : Runtime F) (condition : ConditionType F) : Prop :=
  ∃ condition', parse env (condition.display env) = .ok condition' ∧
    condition'.beq env condition

/-! ### Values -/

/-- The characters that are counted as those of a number. -/
def isNumberChar (env : Runtime F) (d : Char) : Bool := env.isNumeric d || d == '.'

/-- A number with a unit is read by its parts. -/
theorem parseValueWithUnit_eq_ok_some_iff :
    parseValueWithUnit env c = .ok (v, some u) ↔
      env.parseFloat c = none ∧ ∃ number rest, c = number ++ rest ∧
        utf8Len number = (numberRun env c).length ∧ number ≠ [] ∧
          env.parseFloat number = some v ∧ trim rest = u ∧ u ≠ [] := by
  unfold parseValueWithUnit
  cases hfloat : env.parseFloat c with
  | some value => simp
  | none =>
    dsimp only
    constructor
    · intro h
      split_ifs at h with hpos
      simp only [bind_eq_ok_iff, orPanic_eq_ok_iff, orErr_eq_ok_iff] at h
      obtain ⟨number, hto, rest, hfrom, value, hvalue, h⟩ := h
      obtain ⟨rest', rfl, hfrom'⟩ := exists_sliceFrom?_of_sliceTo? hto
      rw [hfrom] at hfrom'
      obtain rfl := Option.some.inj hfrom'
      have hlen := (sliceTo?_eq_some_iff.mp hto).2
      have hne : number ≠ [] := by
        rintro rfl
        rw [utf8Len_nil] at hlen
        omega
      obtain ⟨rfl, hunit⟩ := Prod.mk.inj (ok.inj h)
      split_ifs at hunit with hrest
      obtain rfl := Option.some.inj hunit
      exact ⟨rfl, number, rest, rfl, hlen, hne, hvalue, rfl, hrest⟩
    · rintro ⟨-, number, rest, rfl, hlen, hne, hvalue, rfl, hrest⟩
      have hpos : (numberRun env (number ++ rest)).length > 0 := by
        rw [← hlen]
        exact Nat.pos_of_ne_zero (mt utf8Len_eq_zero_iff.mp hne)
      rw [if_pos hpos, ← hlen, sliceTo?_append, sliceFrom?_append]
      simp only [orPanic_some, ok_bind, hvalue, orErr_some, if_neg hrest]
      rfl

/-- The characters of a number that is printed. -/
theorem isWordChar_displayFloat (env : Runtime F) (v : F) :
    ∀ d ∈ env.displayFloat v, isWordChar d := by
  intro d hd
  obtain h | rfl | rfl := env.displayFloat_chars v d hd
  · simp [isWordChar, h]
  · rfl
  · rfl

/-- A number and its unit are not trimmed. -/
theorem trim_displayFloat_append (hu : trim u = u) :
    trim (env.displayFloat v ++ u) = env.displayFloat v ++ u := by
  refine trim_append_of_forall ?_ hu
  intro d hd
  exact (wordChar_facts (isWordChar_displayFloat env v d hd)).1

/-- **The unit is cut off where it was written**, behind the whole number. -/
theorem eq_displayFloat_of_trim {number rest : List Char} (hu : trim u = u)
    (h : env.displayFloat v ++ u = number ++ rest) (hrest : trim rest = u) :
    number = env.displayFloat v ∧ rest = u := by
  have hle : utf8Len u ≤ utf8Len rest := by
    rw [← hrest]
    exact utf8Len_le_of_isInfix trim_isInfix
  have hlen := congrArg utf8Len h
  rw [utf8Len_append, utf8Len_append] at hlen
  obtain ⟨z, hz, rfl⟩ := exists_append_of_utf8Len_le h.symm (by omega)
  -- What is left of the number begins the unit, where nothing is trimmed.
  have hblank : ∀ d ∈ z, isWhitespace d = false := by
    intro d hd
    refine (wordChar_facts (isWordChar_displayFloat env v d ?_)).1
    rw [hz]
    exact List.mem_append_right number hd
  have hnil : z = [] := by
    have hlen := congrArg List.length ((trim_append_of_forall hblank hu).symm.trans hrest)
    rw [List.length_append, Nat.add_eq_right, List.length_eq_zero_iff] at hlen
    exact hlen
  subst hnil
  exact ⟨by rw [hz, List.append_nil], rfl⟩

/-- A value that is read back: the number is equal to itself, as no undefined one is, and where
there is a unit, the number ends where the unit begins. -/
structure LegibleValue (env : Runtime F) (value : F) (unit : Option (List Char)) : Prop where
  number : env.beqFloat value value
  run : ∀ u, unit = some u → ∀ d ∈ env.displayFloat value, isNumberChar env d
  head : ∀ u, unit = some u → ∀ d, u.head? = some d → isNumberChar env d = false
  whole : ∀ u, unit = some u → env.parseFloat (env.displayFloat value ++ u) = none

/-- The characters counted are those of the number, where it ends with the unit. -/
theorem numberRun_append_iff {a : List Char} :
    numberRun env (a ++ u) = a ↔
      (∀ d ∈ a, isNumberChar env d) ∧ ∀ d, u.head? = some d → isNumberChar env d = false := by
  change (a ++ u).takeWhile (isNumberChar env) = a ↔ _
  constructor
  · intro h
    have hall : ∀ d ∈ a, isNumberChar env d := by
      intro d hd
      rw [← h] at hd
      exact List.mem_takeWhile_imp hd
    refine ⟨hall, ?_⟩
    intro d hd
    obtain ⟨u, rfl⟩ := List.head?_eq_some_iff.mp hd
    rw [List.takeWhile_append_of_pos hall] at h
    by_contra hnum
    rw [List.takeWhile_cons_of_pos (by simpa using hnum)] at h
    simp at h
  · rintro ⟨hall, hhead⟩
    rw [List.takeWhile_append_of_pos hall]
    cases u with
    | nil => simp
    | cons d u => rw [List.takeWhile_cons_of_neg (by simp [hhead d rfl]), List.append_nil]

/-- A number printed with its unit is read as a number with that unit. -/
theorem parseValueWithUnit_display_some_iff {y : F} (hne : u ≠ []) (hu : trim u = u) :
    parseValueWithUnit env (env.displayFloat v ++ u) = .ok (y, some u) ↔
      env.parseFloat (env.displayFloat v ++ u) = none ∧
        numberRun env (env.displayFloat v ++ u) = env.displayFloat v ∧
          env.parseFloat (env.displayFloat v) = some y := by
  have hascii : utf8Len (env.displayFloat v) = (env.displayFloat v).length := by
    apply utf8Len_eq_length_iff.mpr
    intro d hd
    exact isWordChar_ascii (isWordChar_displayFloat env v d hd)
  rw [parseValueWithUnit_eq_ok_some_iff]
  refine and_congr_right fun _ => ⟨?_, ?_⟩
  · rintro ⟨number, rest, hsplit, hlen, -, hy, hrest, -⟩
    obtain ⟨rfl, rfl⟩ := eq_displayFloat_of_trim hu hsplit hrest
    refine ⟨?_, hy⟩
    -- The run is as long as the number, and both begin the text.
    obtain ⟨x, hx⟩ : numberRun env (env.displayFloat v ++ rest) <+: env.displayFloat v ++ rest :=
      List.takeWhile_prefix _
    exact (List.append_inj hx (by rw [← hlen, hascii])).1
  · rintro ⟨hrun, hy⟩
    exact ⟨env.displayFloat v, u, rfl, by rw [hrun, hascii], env.displayFloat_ne_nil v, hy, hu, hne⟩

/-- **Which values are read back.** -/
theorem parseValueWithUnit_display_iff {unit : Option (List Char)}
    (hunit : ∀ u, unit = some u → u ≠ [] ∧ trim u = u) :
    (∃ y, parseValueWithUnit env (env.displayFloat v ++ unit.getD []) = .ok (y, unit) ∧
      env.beqFloat y v) ↔ LegibleValue env v unit := by
  have hself : ∀ y, env.beqFloat y v → env.beqFloat v v := by
    intro y hy
    exact env.beqFloat_trans v y v (env.beqFloat_symm y v hy) hy
  cases unit with
  | none =>
    rw [Option.getD_none, List.append_nil]
    constructor
    · rintro ⟨y, -, hy⟩
      exact ⟨hself y hy, by simp, by simp, by simp⟩
    · intro h
      obtain ⟨y, hparse, hy⟩ := env.parseFloat_displayFloat v h.number
      refine ⟨y, ?_, hy⟩
      rw [parseValueWithUnit, hparse]
  | some u =>
    obtain ⟨hne, hu⟩ := hunit u rfl
    rw [Option.getD_some]
    constructor
    · rintro ⟨y, hparse, hy⟩
      -- The number as read is the number as printed, by the length of the run.
      obtain ⟨hwhole, hrun, -⟩ := (parseValueWithUnit_display_some_iff hne hu).mp hparse
      obtain ⟨hrun, hhead⟩ := numberRun_append_iff.mp hrun
      refine ⟨hself y hy, ?_, ?_, ?_⟩
      · rintro _ ⟨⟩
        exact hrun
      · rintro _ ⟨⟩
        exact hhead
      · rintro _ ⟨⟩
        exact hwhole
    · intro h
      obtain ⟨y, hparse, hy⟩ := env.parseFloat_displayFloat v h.number
      have hrun := numberRun_append_iff.mpr ⟨h.run u rfl, h.head u rfl⟩
      exact ⟨y, (parseValueWithUnit_display_some_iff hne hu).mpr ⟨h.whole u rfl, hrun, hparse⟩, hy⟩

/-! ### Vehicle properties -/

/-- A vehicle property, as the grammar returns it for a text. -/
structure PropertyOf (c : List Char) (vp : VehiclePropertyCondition F) : Prop where
  operator : ∃ before after, comparisons = before ++ vp.operator.name.toList :: after ∧
    ∀ e ∈ before, ¬ e <:+: c
  unit : ∀ u, vp.unit = some u → u <:+: c ∧ u ≠ [] ∧ trim u = u

variable {vp : VehiclePropertyCondition F}

theorem propertyOf_of_parseVehicleProperty (h : parseVehicleProperty env c = .ok vp) :
    PropertyOf c vp := by
  unfold parseVehicleProperty at h
  split at h
  · next op pos hfound =>
    obtain ⟨a, b, hsplit, hto, hfrom⟩ := exists_of_findComparison hfound
    simp only [hto, hfrom, orPanic_some, ok_bind, bind_eq_ok_iff, orErr_eq_ok_iff] at h
    obtain ⟨property, -, operator, hop, ⟨value, unit⟩, hvalue, h⟩ := h
    obtain rfl := ok.inj h
    constructor
    · -- The comparisons looked for before the one found do not occur.
      rw [findComparison, List.findSome?_eq_some_iff] at hfound
      obtain ⟨before, op', after, hcomparisons, hop', hbefore⟩ := hfound
      obtain ⟨pos', -, heq⟩ := Option.map_eq_some_iff.mp hop'
      obtain ⟨rfl, -⟩ := Prod.mk.inj heq
      refine ⟨before, after, ?_, ?_⟩
      · rw [hcomparisons, name_of_fromName hop]
      · intro e he
        exact find_eq_none_iff.mp (Option.map_eq_none_iff.mp (hbefore e he))
    · rintro u ⟨⟩
      obtain ⟨-, number, rest, htrim, -, -, -, rfl, hne⟩ :=
        parseValueWithUnit_eq_ok_some_iff.mp hvalue
      have hrest : rest <:+: trim b := ⟨number, [], by rw [List.append_nil, htrim]⟩
      have hb : b <:+: c := ⟨a ++ op, [], by simp [hsplit]⟩
      exact ⟨trim_isInfix.trans (hrest.trans (trim_isInfix.trans hb)), hne, trim_trim⟩
  · cases h

theorem PropertyOf.trim_unit (h : PropertyOf c vp) : trim (vp.unit.getD []) = vp.unit.getD [] := by
  cases hu : vp.unit with
  | none => rfl
  | some u => exact (h.unit u hu).2.2

theorem PropertyOf.unit_isInfix (h : PropertyOf c vp) : vp.unit.getD [] <:+: c := by
  cases hu : vp.unit with
  | none => exact List.nil_infix
  | some u => exact (h.unit u hu).1

theorem property_name_facts (property : VehicleProperty) :
    (∀ d ∈ property.name.toList, isWordChar d ∧ isComparisonChar d = false ∧ d ≠ '-') ∧
      property.name.toList ≠ [] ∧ trim property.name.toList = property.name.toList ∧
        VehicleProperty.fromStr property.name.toList = some property := by
  cases property <;> decide

theorem operator_name_facts (operator : ComparisonOperator) :
    (∀ d ∈ operator.name.toList, isWordChar d ∧ isComparisonChar d) ∧
      operator.name.toList ≠ [] ∧
        ComparisonOperator.fromStr operator.name.toList = some operator := by
  cases operator <;> decide

theorem not_isComparisonChar_displayFloat :
    ∀ d ∈ env.displayFloat v, isComparisonChar d = false := by
  intro d hd
  obtain h | rfl | rfl := env.displayFloat_chars v d hd
  · refine forall_ascii (P := fun d => d.isAlphanum → isComparisonChar d = false) ?_ d
      (isWordChar_ascii (isWordChar_displayFloat env v d hd)) h
    decide
  · rfl
  · rfl

/-- **A property is read back as its value is.** -/
theorem parseVehicleProperty_display (h : PropertyOf c vp) :
    parseVehicleProperty env ((ConditionType.vehicleProperty vp).display env) =
      (fun value => ⟨vp.property, vp.operator, value.1, value.2⟩) <$>
        parseValueWithUnit env (env.displayFloat vp.value ++ vp.unit.getD []) := by
  obtain ⟨before, after, hcomparisons, hbefore⟩ := h.operator
  obtain ⟨hname, -, htrim, hproperty⟩ := property_name_facts vp.property
  obtain ⟨-, -, hoperator⟩ := operator_name_facts vp.operator
  have hfound := @findComparison_append vp.property.name.toList (vp.unit.getD [])
    vp.operator.name.toList (env.displayFloat vp.value) before after hcomparisons
    (fun d hd => (hname d hd).2.1) (env.displayFloat_ne_nil vp.value)
    not_isComparisonChar_displayFloat fun e he hunit => hbefore e he (hunit.trans h.unit_isInfix)
  have hfrom := sliceFrom?_append (vp.property.name.toList ++ vp.operator.name.toList)
    (env.displayFloat vp.value ++ vp.unit.getD [])
  rw [List.append_assoc, utf8Len_append] at hfrom
  rw [ConditionType.display_vehicleProperty, List.append_assoc, List.append_assoc,
    parseVehicleProperty, hfound]
  simp only [sliceTo?_append, hfrom, orPanic_some, ok_bind, htrim, hproperty, orErr_some, hoperator,
    trim_displayFloat_append h.trim_unit]
  rfl

/-- A property is printed as a word, and its unit behind it. -/
theorem exists_display_vehicleProperty (env : Runtime F) (vp : VehiclePropertyCondition F) :
    ∃ a d b, (ConditionType.vehicleProperty vp).display env = (a ++ d :: b) ++ vp.unit.getD [] ∧
      '-' ∉ a ∧ isComparisonChar d ∧ ∀ e ∈ a ++ d :: b, isWordChar e := by
  obtain ⟨hname, -⟩ := property_name_facts vp.property
  obtain ⟨hop, hne, -⟩ := operator_name_facts vp.operator
  obtain ⟨d, op, hcons⟩ := List.exists_cons_of_ne_nil hne
  rw [hcons] at hop
  refine ⟨vp.property.name.toList, d, op ++ env.displayFloat vp.value, ?_, ?_, ?_, ?_⟩
  · simp [ConditionType.display_vehicleProperty, hcons]
  · intro h
    exact (hname '-' h).2.2 rfl
  · exact (hop d List.mem_cons_self).2
  · intro e he
    rw [List.mem_append, ← List.cons_append, List.mem_append] at he
    obtain he | he | he := he
    · exact (hname e he).1
    · exact (hop e he).1
    · exact isWordChar_displayFloat env vp.value e he

theorem isErr_parseCombinedCondition {parse : List Char → Outcome (ConditionType F)}
    (hfound : findOperator env c = none) : (parseCombinedCondition env parse c).IsErr := by
  unfold parseCombinedCondition
  rw [hfound]
  exact ⟨_, rfl⟩

/-- A property that is legible: its value is read back, and with its unit it is no opening
hours. -/
structure LegibleProperty (env : Runtime F) (vp : VehiclePropertyCondition F) : Prop where
  value : LegibleValue env vp.value vp.unit
  time : ∀ u, vp.unit = some u →
    (parseTimeDate env ((ConditionType.vehicleProperty vp).display env)).IsErr

/-- What is printed is read as a property, unless it is opening hours. -/
theorem parse_display_vehicleProperty_iff {vp' : VehiclePropertyCondition F} (h : PropertyOf c vp)
    (hfound : findOperator env c = none) :
    parse env ((ConditionType.vehicleProperty vp).display env) = .ok (.vehicleProperty vp') ↔
      (parseTimeDate env ((ConditionType.vehicleProperty vp).display env)).IsErr ∧
        parseVehicleProperty env ((ConditionType.vehicleProperty vp).display env) = .ok vp' := by
  obtain ⟨a, d, b, hdisplay, -, hd, hword⟩ := exists_display_vehicleProperty env vp
  have hclean := clean_word_append hword (by simp) h.trim_unit
  have hnone := findOperator_word_append hword (findOperator_of_isInfix h.unit_isInfix hfound)
  have hmem : d ∈ (a ++ d :: b) ++ vp.unit.getD [] := by simp
  rw [parse_eq_ok_iff, hdisplay, hclean]
  constructor
  · intro h
    cases h with
    | vehicleProperty _ htime _ _ h => exact ⟨htime, h⟩
  · rintro ⟨htime, h⟩
    exact .vehicleProperty (isErr_parseCombinedCondition hnone) htime (isErr_parseSeason hmem hd)
      (isErr_parseRoadCondition hmem hd) h

theorem beq_vehicleProperty_iff {condition : ConditionType F} :
    condition.beq env (.vehicleProperty vp) ↔
      ∃ y, condition = .vehicleProperty ⟨vp.property, vp.operator, y, vp.unit⟩ ∧
        env.beqFloat y vp.value := by
  cases condition with
  | vehicleProperty vp' =>
    obtain ⟨property, operator, value, unit⟩ := vp'
    simp only [ConditionType.beq, Bool.and_eq_true, decide_eq_true_eq]
    constructor
    · rintro ⟨⟨⟨rfl, rfl⟩, hvalue⟩, rfl⟩
      exact ⟨value, rfl, hvalue⟩
    · rintro ⟨y, h, hvalue⟩
      cases h
      exact ⟨⟨⟨rfl, rfl⟩, hvalue⟩, rfl⟩
  | _ => simp [ConditionType.beq]

/-- **Which properties are read back.** -/
theorem readBack_vehicleProperty_iff (h : PropertyOf c vp) (hfound : findOperator env c = none) :
    ReadBack env (.vehicleProperty vp) ↔ LegibleProperty env vp := by
  have hunit : ∀ u, vp.unit = some u → u ≠ [] ∧ trim u = u := fun u hu => (h.unit u hu).2
  have hvalue := @parseValueWithUnit_display_iff F env vp.value vp.unit hunit
  -- Without a unit, the text is a word with a comparison.
  have htime : vp.unit = none →
      (parseTimeDate env ((ConditionType.vehicleProperty vp).display env)).IsErr := by
    intro hnone
    obtain ⟨a, d, b, hdisplay, ha, hd, hword⟩ := exists_display_vehicleProperty env vp
    rw [hdisplay, hnone, Option.getD_none, List.append_nil]
    exact isErr_parseTimeDate_word ha hd hword
  constructor
  · rintro ⟨condition', hparse, hbeq⟩
    obtain ⟨y, rfl, hy⟩ := beq_vehicleProperty_iff.mp hbeq
    obtain ⟨htime, hproperty⟩ := (parse_display_vehicleProperty_iff h hfound).mp hparse
    rw [parseVehicleProperty_display h, map_eq_ok_iff] at hproperty
    obtain ⟨⟨y', unit⟩, hparsed, heq⟩ := hproperty
    simp only [VehiclePropertyCondition.mk.injEq, true_and] at heq
    obtain ⟨rfl, rfl⟩ := heq
    exact ⟨hvalue.mp ⟨y', hparsed, hy⟩, fun _ _ => htime⟩
  · rintro ⟨hlegible, htimeunit⟩
    obtain ⟨y, hparse, hy⟩ := hvalue.mpr hlegible
    refine ⟨_, (parse_display_vehicleProperty_iff h hfound).mpr ⟨?_, ?_⟩,
      beq_vehicleProperty_iff.mpr ⟨y, rfl, hy⟩⟩
    · cases hunit : vp.unit with
      | none => exact htime hunit
      | some u => exact htimeunit u hunit
    · rw [parseVehicleProperty_display h, hparse]
      rfl

/-! ### Times -/

/-- Times, as the grammar returns them for a text. -/
structure TimeOf (c : List Char) (td : TimeDateCondition) : Prop where
  rules : td.openingHours.rules ≠ []
  valid : ∀ rule ∈ td.openingHours.rules, rule.Valid
  comment : ∀ comment, td.comment = some comment → comment <:+: c

variable {td td' : TimeDateCondition}

theorem toOption_eq_some_iff {ε α : Type} {x : Except ε α} {a : α} :
    x.toOption = some a ↔ x = .ok a := by
  cases x with
  | error e => simp [Except.toOption]
  | ok b => simp [Except.toOption]

theorem timeOf_of_parseTimeDate (h : parseTimeDate env c = .ok td) : TimeOf c td := by
  unfold parseTimeDate at h
  split at h
  · simp only [bind_eq_ok_iff, orPanic_eq_ok_iff, orErr_eq_ok_iff, toOption_eq_some_iff] at h
    obtain ⟨_, -, comment, hcomment, hours, hhours, h⟩ := h
    obtain rfl := ok.inj h
    obtain ⟨hne, hvalid⟩ := OpeningHoursParser.valid_of_parse hhours
    refine ⟨hne, hvalid, ?_⟩
    rintro _ ⟨⟩
    exact infix_of_slice? hcomment
  · simp only [bind_eq_ok_iff, orErr_eq_ok_iff, toOption_eq_some_iff] at h
    obtain ⟨hours, hhours, h⟩ := h
    obtain rfl := ok.inj h
    obtain ⟨hne, hvalid⟩ := OpeningHoursParser.valid_of_parse hhours
    exact ⟨hne, hvalid, by simp⟩

/-- The characters of opening hours that are printed. -/
theorem hoursChar_facts {hours : OpeningHours} {d : Char} (h : d ∈ hours.display) :
    d.toNat < 128 ∧ isWhitespace d = false ∧ d ≠ ' ' ∧ d ≠ '(' ∧ d ≠ '"' := by
  obtain rfl | h := hours.mem_display h
  · decide
  · have hascii := isRuleChar_ascii h
    refine ⟨hascii, ?_⟩
    refine forall_ascii (P := fun d => isRuleChar d → isWhitespace d = false ∧ d ≠ ' ' ∧ d ≠ '(' ∧
      d ≠ '"') ?_ d hascii h
    decide

theorem display_timeDate_some {hours : OpeningHours} {comment : List Char} :
    (ConditionType.timeDate ⟨hours, some comment⟩).display env =
      hours.display ++ ' ' :: '"' :: (comment ++ ['"']) := by
  change hours.display ++ ' ' :: '"' :: comment ++ ['"'] = _
  simp

/-- The comment stays behind the opening hours when the text is cleaned. -/
theorem clean_display_quoted (hours : OpeningHours) (comment : List Char) :
    ∃ a, clean (hours.display ++ ' ' :: '"' :: (comment ++ ['"'])) =
        a ++ '"' :: (comment ++ ['"']) ∧ '"' ∉ a ∧ trim a = hours.display := by
  have htrim : ∀ d t, isWhitespace d = false → trim (d :: (t ++ ['"'])) = d :: (t ++ ['"']) := by
    intro d t hd
    refine trim_eq_self_iff.mpr ⟨?_, ?_⟩
    · rintro _ ⟨⟩
      exact hd
    · intro c hc
      rw [← List.cons_append, List.getLast?_concat] at hc
      rw [← Option.some.inj hc]
      rfl
  cases hdisplay : hours.display with
  | nil =>
    -- Rules that say closed are printed as nothing.
    refine ⟨[], ?_, by simp, rfl⟩
    rw [← clean_trim, List.nil_append, trim_cons_of_isWhitespace (by decide), clean_trim]
    exact clean_eq_self (htrim '"' comment (by decide)) (by simp)
  | cons d display =>
    have hfacts : ∀ e ∈ d :: display, isWhitespace e = false ∧ e ≠ '(' ∧ e ≠ '"' := by
      intro e he
      rw [← hdisplay] at he
      obtain ⟨-, hblank, -, hparen, hquote⟩ := hoursChar_facts he
      exact ⟨hblank, hparen, hquote⟩
    obtain ⟨hblank, hparen, -⟩ := hfacts d List.mem_cons_self
    -- Nothing is cut off; the blank before the comment goes with the opening hours.
    refine ⟨d :: display ++ [' '], ?_, ?_, ?_⟩
    · have hsplit : d :: display ++ ' ' :: '"' :: (comment ++ ['"'])
          = d :: (display ++ ' ' :: '"' :: comment ++ ['"']) := by simp
      rw [hsplit, clean_eq_self (htrim d _ hblank) (by simpa using hparen)]
      simp
    · intro h
      rw [List.mem_append, List.mem_singleton] at h
      obtain h | h := h
      · exact (hfacts '"' h).2.2 rfl
      · exact absurd h (by decide)
    · rw [trim_append_of_isWhitespace (by decide)]
      apply trim_eq_self_of_forall
      intro e he
      exact (hfacts e he).1

/-- What is printed is read as the opening hours are. -/
theorem parseTimeDate_display (td : TimeDateCondition) :
    parseTimeDate env (clean ((ConditionType.timeDate td).display env)) =
      (fun hours => ⟨hours, td.comment⟩) <$> orErr .notTimeDate
        (OpeningHoursParser.parse env.toUnicode td.openingHours.display).toOption := by
  obtain ⟨hours, comment⟩ := td
  cases comment with
  | none =>
    have hclean : clean hours.display = hours.display := by
      refine clean_eq_self (trim_eq_self_of_forall ?_) ?_
      · intro d hd
        exact (hoursChar_facts hd).2.1
      · intro h
        exact (hoursChar_facts (List.mem_of_head? h)).2.2.2.1 rfl
    change parseTimeDate env (clean hours.display) = _
    rw [hclean]
    exact parseTimeDate_unquoted fun h => (hoursChar_facts h).2.2.2.2 rfl
  | some comment =>
    obtain ⟨a, hclean, hquote, htrim⟩ := clean_display_quoted hours comment
    rw [display_timeDate_some, hclean, parseTimeDate_quoted hquote (List.not_mem_nil), htrim]

/-- **Which times are read back.** -/
theorem parseTimeDate_display_iff (h : TimeOf c td) :
    parseTimeDate env (clean ((ConditionType.timeDate td).display env)) = .ok td' ↔
      (∀ rule ∈ td.openingHours.rules, rule.Plain) ∧ td' = td := by
  rw [parseTimeDate_display, map_eq_ok_iff]
  simp only [orErr_eq_ok_iff, toOption_eq_some_iff,
    OpeningHoursParser.parse_display_iff h.rules h.valid]
  constructor
  · rintro ⟨hours, ⟨hplain, rfl⟩, rfl⟩
    exact ⟨hplain, rfl⟩
  · rintro ⟨hplain, rfl⟩
    exact ⟨td'.openingHours, ⟨hplain, rfl⟩, rfl⟩

/-- No operator is found in times that are printed. -/
theorem findOperator_display_timeDate (h : TimeOf c td) (hfound : findOperator env c = none) :
    findOperator env (clean ((ConditionType.timeDate td).display env)) = none := by
  apply findOperator_of_isInfix (clean_isInfix _)
  have hhours : ∀ d ∈ td.openingHours.display, d.toNat < 128 ∧ d ≠ ' ' := by
    intro d hd
    exact ⟨(hoursChar_facts hd).1, (hoursChar_facts hd).2.2.1⟩
  obtain ⟨hours, comment⟩ := td
  cases comment with
  | none => exact findOperator_word hhours
  | some comment =>
    rw [display_timeDate_some]
    exact findOperator_quoted hhours (findOperator_of_isInfix (h.comment comment rfl) hfound)

theorem readBack_timeDate_iff (h : TimeOf c td) (hfound : findOperator env c = none) :
    ReadBack env (.timeDate td) ↔ ∀ rule ∈ td.openingHours.rules, rule.Plain := by
  have hnone := findOperator_display_timeDate h hfound
  have hparse : parse env ((ConditionType.timeDate td).display env) = .ok (.timeDate td) ↔
      parseTimeDate env (clean ((ConditionType.timeDate td).display env)) = .ok td := by
    rw [parse_eq_ok_iff]
    constructor
    · intro h
      cases h with
      | timeDate _ h => exact h
    · exact .timeDate (isErr_parseCombinedCondition hnone)
  rw [parseTimeDate_display_iff h, and_iff_left rfl] at hparse
  rw [← hparse]
  constructor
  · rintro ⟨condition', hread, hbeq⟩
    cases condition' with
    | timeDate td' =>
      obtain rfl := of_decide_eq_true hbeq
      exact hread
    | _ => cases hbeq
  · intro hread
    exact ⟨_, hread, decide_eq_true rfl⟩

/-! ### Occupants -/

variable {operator : ComparisonOperator} {count : ℕ}

/-- What vehicle usage is read as: a text as it was written, or a 32-bit number of occupants. -/
theorem usage_of_parseVehicleUsage {usage : VehicleUsageCondition}
    (h : parseVehicleUsage c = .ok usage) :
    usage = .hazmat ∧ c = "hazmat".toList ∨ usage = .load c ∨
      ∃ operator count, usage = .occupants operator count ∧ count ≤ maxU32 := by
  unfold parseVehicleUsage at h
  split_ifs at h with hhazmat
  · exact .inl ⟨(ok.inj h).symm, hhazmat⟩
  · split at h
    · split at h
      · simp only [bind_eq_ok_iff, orErr_eq_ok_iff] at h
        obtain ⟨operator, -, _, -, count, hcount, h⟩ := h
        exact .inr (.inr ⟨operator, count, (ok.inj h).symm, le_of_parseUint hcount⟩)
      · exact .inr (.inl (ok.inj h).symm)
    · exact .inr (.inl (ok.inj h).symm)

theorem digit_facts {d : Char} (h : d ∈ Nat.toDigits 10 count) :
    isWordChar d ∧ isComparisonChar d = false := by
  have hdigit : d.isDigit := Nat.isDigit_of_mem_toDigits (by decide) (by decide) h
  have hword : isWordChar d := by simp [isWordChar, Char.isAlphanum, hdigit]
  refine ⟨hword, ?_⟩
  refine forall_ascii (P := fun d => d.isDigit → isComparisonChar d = false) ?_ d
    (isWordChar_ascii hword) hdigit
  decide

/-- The comparison of a number that is printed is found. -/
theorem findComparison_digits {a : List Char} (ha : ∀ d ∈ a, isComparisonChar d = false) :
    findComparison (a ++ (operator.name.toList ++ Nat.toDigits 10 count)) =
      some (operator.name.toList, utf8Len a) := by
  have hmem : operator.name.toList ∈ comparisons := by cases operator <;> decide
  obtain ⟨before, after, hcomparisons⟩ := List.append_of_mem hmem
  have hbefore : ∀ e ∈ before, ¬ e <:+: [] := by
    intro e he hinfix
    refine (isComparisonChar_of_mem e ?_).1 (List.infix_nil.mp hinfix)
    rw [hcomparisons]
    exact List.mem_append_left _ he
  have hdigits : ∀ d ∈ Nat.toDigits 10 count, isComparisonChar d = false := fun d hd =>
    (digit_facts hd).2
  have hfound := findComparison_append hcomparisons ha Nat.toDigits_ne_nil hdigits hbefore
  rwa [List.append_nil] at hfound

theorem occupants_facts : ∀ d ∈ "occupants".toList,
    isWordChar d ∧ isComparisonChar d = false ∧ d ≠ '-' := by
  decide

/-- Occupants are no property of a vehicle. -/
theorem isErr_parseVehicleProperty_occupants : (parseVehicleProperty env
    ("occupants".toList ++ (operator.name.toList ++ Nat.toDigits 10 count))).IsErr := by
  have hunknown : VehicleProperty.fromStr (trim "occupants".toList) = none := by decide
  have hfrom := sliceFrom?_append ("occupants".toList ++ operator.name.toList)
    (Nat.toDigits 10 count)
  rw [List.append_assoc, utf8Len_append] at hfrom
  rw [parseVehicleProperty, findComparison_digits fun d hd => (occupants_facts d hd).2.1]
  simp only [sliceTo?_append, hfrom, orPanic_some, ok_bind, hunknown]
  exact ⟨_, rfl⟩

theorem parseVehicleUsage_display (hcount : count ≤ maxU32) : parseVehicleUsage
    ("occupants".toList ++ (operator.name.toList ++ Nat.toDigits 10 count)) =
      .ok (.occupants operator count) := by
  obtain ⟨-, -, hoperator⟩ := operator_name_facts operator
  have htrim : trim (Nat.toDigits 10 count) = Nat.toDigits 10 count := by
    apply trim_eq_self_of_forall
    intro d hd
    exact (wordChar_facts (digit_facts hd).1).1
  have hhazmat : "occupants".toList ++ (operator.name.toList ++ Nat.toDigits 10 count) ≠
      "hazmat".toList := by
    simp
  have hdrop : ("occupants".toList ++
      (operator.name.toList ++ Nat.toDigits 10 count)).dropPrefix? "occupants".toList =
        some (operator.name.toList ++ Nat.toDigits 10 count) :=
    List.dropPrefix?_eq_some_iff.mpr ⟨_, rfl, beq_self_eq_true _⟩
  have hfound := @findComparison_digits operator count [] (by simp)
  have hfrom := sliceFrom?_append operator.name.toList (Nat.toDigits 10 count)
  rw [← Nat.zero_add (utf8Len operator.name.toList)] at hfrom
  rw [List.nil_append, utf8Len_nil] at hfound
  rw [parseVehicleUsage, if_neg hhazmat, hdrop]
  simp only [hfound, hoperator, hfrom, htrim, parseUint_toDigits hcount, orPanic_some, orErr_some,
    ok_bind]
  rfl

/-- **A number of occupants is read back.** -/
theorem readBack_occupants (hcount : count ≤ maxU32) :
    ReadBack env (.vehicleUsage (.occupants operator count)) := by
  obtain ⟨hop, hne, -⟩ := operator_name_facts operator
  obtain ⟨d, op, hcons⟩ := List.exists_cons_of_ne_nil hne
  have hd : isComparisonChar d := (hop d (by simp [hcons])).2
  have hmem : d ∈ "occupants".toList ++ (operator.name.toList ++ Nat.toDigits 10 count) := by
    simp [hcons]
  have hword : ∀ e ∈ "occupants".toList ++ (operator.name.toList ++ Nat.toDigits 10 count),
      isWordChar e := by
    intro e he
    rw [List.mem_append, List.mem_append] at he
    obtain he | he | he := he
    · exact (occupants_facts e he).1
    · exact (hop e he).1
    · exact (digit_facts he).1
  have hclean := @clean_word_append _ [] hword (by simp) rfl
  have hnone := @findOperator_word_append F env _ [] hword findOperator_nil
  rw [List.append_nil] at hclean hnone
  have htime : (parseTimeDate env
      ("occupants".toList ++ (operator.name.toList ++ Nat.toDigits 10 count))).IsErr := by
    rw [hcons] at hword ⊢
    exact isErr_parseTimeDate_word (by decide) hd hword
  refine ⟨.vehicleUsage (.occupants operator count), ?_, by simp [ConditionType.beq]⟩
  rw [parse_eq_ok_iff, ConditionType.display_occupants, List.append_assoc, hclean]
  exact .vehicleUsage ⟨isErr_parseCombinedCondition hnone, htime, isErr_parseSeason hmem hd,
    isErr_parseRoadCondition hmem hd, isErr_parseVehicleProperty_occupants⟩
    (parseVehicleUsage_display hcount)

/-! ### What is kept as it was written -/

variable {condition l r : ConditionType F} {o : LogicalOperator}

/-- The conditions that are printed as they were written. -/
def Verbatim : ConditionType F → Prop
  | .timeDate _ | .vehicleProperty _ | .vehicleUsage (.occupants _ _) | .stayDuration _
  | .combined _ _ _ => False
  | _ => True

theorem display_of_chosen (h : Chosen env c condition) (hverbatim : Verbatim condition) :
    condition.display env = c := by
  cases h with
  | combined | timeDate | vehicleProperty | stayDuration => exact hverbatim.elim
  | season _ _ h => exact name_of_fromName (orErr_eq_ok_iff.mp h)
  | roadCondition _ _ _ h => exact name_of_fromName (orErr_eq_ok_iff.mp h)
  | userGroup _ _ h => exact name_of_fromName (orErr_eq_ok_iff.mp h)
  | purpose _ _ _ h => exact name_of_fromName (orErr_eq_ok_iff.mp h)
  | raw => rfl
  | vehicleUsage _ h =>
    obtain ⟨rfl, rfl⟩ | rfl | ⟨_, _, rfl, -⟩ := usage_of_parseVehicleUsage h
    · rfl
    · rfl
    · exact hverbatim.elim

theorem beq_verbatim_iff {condition' : ConditionType F} (hverbatim : Verbatim condition) :
    condition'.beq env condition ↔ condition' = condition := by
  cases condition <;> first
    | exact hverbatim.elim
    | cases condition' <;> simp [ConditionType.beq]

/-- **Which texts that are kept are read back**: those that are as clean as they can be. -/
theorem readBack_verbatim_iff (h : Chosen env (clean s) condition)
    (hverbatim : Verbatim condition) :
    ReadBack env condition ↔ clean (clean s) = clean s := by
  have hdisplay := display_of_chosen h hverbatim
  rw [ReadBack, hdisplay]
  simp only [beq_verbatim_iff hverbatim, exists_eq_right]
  constructor
  · intro hread
    rw [← display_of_chosen (parse_eq_ok_iff.mp hread) hverbatim, hdisplay]
  · intro hclean
    rw [parse_clean hclean]
    exact parse_eq_ok_iff.mpr h

/-! ### Combined conditions -/

theorem display_combined_eq (l r : ConditionType F) (o : LogicalOperator) :
    (ConditionType.combined l o r).display env =
      l.display env ++ (token o ++ r.display env) := by
  simp [ConditionType.display_combined, token]

/-- A text is parsed by its halves, where the operator is found between them. -/
theorem parse_halves_iff {x y : List Char} (hclean : clean (x ++ (token o ++ y)) =
      x ++ (token o ++ y))
    (hfound : findOperator env (x ++ (token o ++ y)) = some (o, utf8Len x)) :
    parse env (x ++ (token o ++ y)) = .ok condition ↔
      ∃ l r, parse env x = .ok l ∧ parse env y = .ok r ∧ condition = .combined l o r := by
  have hfrom : sliceFrom? (x ++ (token o ++ y)) (utf8Len x + utf8Len (token o)) = some y := by
    rw [← utf8Len_append, ← List.append_assoc]
    exact sliceFrom?_append _ y
  have hcombined : parseCombinedCondition env (parse env) (x ++ (token o ++ y)) = .ok condition ↔
      ∃ l r, parse env x = .ok l ∧ parse env y = .ok r ∧ condition = .combined l o r := by
    simp only [parseCombinedCondition, hfound, sliceTo?_append, hfrom, orPanic_some, ok_bind,
      bind_eq_ok_iff, parse_trim, pure_eq, ok.injEq]
    constructor
    · rintro ⟨l, hl, r, hr, rfl⟩
      exact ⟨l, r, hl, hr, rfl⟩
    · rintro ⟨l, r, hl, hr, rfl⟩
      exact ⟨l, hl, r, hr, rfl⟩
  have hnoterr := not_isErr_parseCombinedCondition hfound
  rw [← hcombined, parse_eq, hclean, dispatch, orElse_eq_ok_iff]
  simp [hnoterr]

theorem beq_combined_iff :
    condition.beq env (.combined l o r) ↔
      ∃ l' r', condition = .combined l' o r' ∧ l'.beq env l ∧ r'.beq env r := by
  cases condition with
  | combined l' o' r' =>
    simp only [ConditionType.beq, Bool.and_eq_true, decide_eq_true_eq]
    constructor
    · rintro ⟨⟨hl, rfl⟩, hr⟩
      exact ⟨l', r', rfl, hl, hr⟩
    · rintro ⟨l'', r'', h, hl, hr⟩
      cases h
      exact ⟨⟨hl, rfl⟩, hr⟩
  | _ => simp [ConditionType.beq]

/-- **A combined condition is read back as its halves are**, where its operator is found between
them. -/
theorem readBack_combined_iff
    (hclean : clean ((ConditionType.combined l o r).display env) =
      (ConditionType.combined l o r).display env)
    (hfound : findOperator env ((ConditionType.combined l o r).display env) =
      some (o, utf8Len (l.display env))) :
    ReadBack env (.combined l o r) ↔ ReadBack env l ∧ ReadBack env r := by
  rw [display_combined_eq] at hclean hfound
  simp only [ReadBack, display_combined_eq, parse_halves_iff hclean hfound, beq_combined_iff]
  constructor
  · rintro ⟨_, ⟨l', r', hl, hr, rfl⟩, l'', r'', h, hbl, hbr⟩
    cases h
    exact ⟨⟨l', hl, hbl⟩, r', hr, hbr⟩
  · rintro ⟨⟨l', hl, hbl⟩, r', hr, hbr⟩
    exact ⟨_, ⟨l', r', hl, hr, rfl⟩, l', r', rfl, hbl, hbr⟩

end Condition

end Routers
