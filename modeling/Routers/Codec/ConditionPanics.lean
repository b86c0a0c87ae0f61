import Routers.Codec.ConditionOrder

/-!
# Where the parser of conditions panics

The parser cuts texts at offsets that it has found in them, except in three places.  The
operator of a combined condition is looked for in an upper-case copy, whose characters may be of
other lengths.  A comment is cut out between the first and the last quotation mark, which may be
the same.  The number of a vehicle property is measured in characters and cut off in bytes.

## Main definitions

* `Condition.Safe` — the texts for which these cuts succeed.

## Main results

* `Condition.parseTimeDate_eq_panicked_iff`, `Condition.parseVehicleProperty_eq_panicked_iff` —
  where the grammars panic.
* `Condition.parse_ne_panicked_iff` — **which texts are parsed without a panic.**

## References

`src/libs/routers_codec/src/osm/parsers/primitives/condition.rs`.
-/

namespace Routers

open Text Outcome

namespace Condition

variable {F : Type} {env : Runtime F} {s c : List Char}

/-! ### Cuts that succeed -/

theorem sliceTo?_append (a b : List Char) : sliceTo? (a ++ b) (utf8Len a) = some a :=
  sliceTo?_eq_some_iff.mpr ⟨⟨b, rfl⟩, rfl⟩

theorem sliceFrom?_append (a b : List Char) : sliceFrom? (a ++ b) (utf8Len a) = some b :=
  sliceFrom?_eq_some_iff.mpr ⟨a, rfl, rfl⟩

/-- A comparison that is found is one of the comparisons, and cuts the text in two. -/
theorem exists_of_findComparison {op : List Char} {pos : ℕ}
    (h : findComparison s = some (op, pos)) :
    ∃ a b, s = a ++ (op ++ b) ∧ sliceTo? s pos = some a ∧
      sliceFrom? s (pos + utf8Len op) = some b := by
  obtain ⟨op', -, hop⟩ := List.exists_of_findSome?_eq_some h
  obtain ⟨pos', hfind, heq⟩ := Option.map_eq_some_iff.mp hop
  cases heq
  obtain ⟨a, b, rfl, rfl⟩ := exists_of_find hfind
  refine ⟨a, b, rfl, sliceTo?_append a _, ?_⟩
  rw [← utf8Len_append, ← List.append_assoc]
  exact sliceFrom?_append _ b

/-! ### The grammars that panic -/

/-- Without quotation marks, the whole text is opening hours. -/
theorem parseTimeDate_unquoted (h : '"' ∉ c) :
    parseTimeDate env c = (fun hours => ⟨hours, none⟩) <$>
      orErr .notTimeDate (OpeningHoursParser.parse env.toUnicode c).toOption := by
  unfold parseTimeDate
  rw [find_char_eq_none h]
  rfl

/-- What is between the first and the last quotation mark is the comment, what is before it the
opening hours. -/
theorem parseTimeDate_quoted {hours comment rest : List Char} (hhours : '"' ∉ hours)
    (hrest : '"' ∉ rest) :
    parseTimeDate env (hours ++ '"' :: (comment ++ '"' :: rest))
      = (fun openingHours => ⟨openingHours, some comment⟩) <$>
        orErr .notTimeDate (OpeningHoursParser.parse env.toUnicode (trim hours)).toOption := by
  have hrfind : rfind '"' (hours ++ '"' :: (comment ++ '"' :: rest))
      = some (utf8Len (hours ++ ['"'] ++ comment)) := by
    have h := rfind_append (a := hours ++ ['"'] ++ comment) hrest
    rwa [List.append_assoc, List.append_assoc, List.singleton_append, ← List.cons_append,
      List.cons_append] at h
  have hslice : slice? (hours ++ '"' :: (comment ++ '"' :: rest)) (utf8Len hours + 1)
      (utf8Len (hours ++ ['"'] ++ comment)) = some comment := by
    have h := slice?_append (a := hours ++ ['"']) (t := comment) (b := '"' :: rest)
    have hlen : utf8Len (hours ++ ['"']) = utf8Len hours + 1 := utf8Len_append
    rwa [hlen, List.append_assoc, List.append_assoc, List.singleton_append] at h
  unfold parseTimeDate
  rw [find_char_append hhours]
  simp only [sliceTo?_append, hrfind, Option.getD_some, hslice, orPanic_some, ok_bind]
  rfl

/-- **A time condition panics on a single quotation mark.** -/
theorem parseTimeDate_eq_panicked_iff : parseTimeDate env c = .panicked ↔ c.count '"' = 1 := by
  by_cases hquote : '"' ∈ c
  · obtain ⟨hours, b, rfl, hhours⟩ := List.eq_append_cons_of_mem hquote
    have hcount : (hours ++ '"' :: b).count '"' = b.count '"' + 1 := by
      rw [List.count_append, List.count_eq_zero_of_not_mem hhours, List.count_cons_self,
        Nat.zero_add]
    rw [hcount, Nat.add_eq_right, List.count_eq_zero]
    by_cases hb : '"' ∈ b
    · obtain ⟨comment, rest, rfl, hrest⟩ := exists_append_cons_of_mem hb
      rw [parseTimeDate_quoted hhours hrest]
      simp [hb]
    · have hrfind : rfind '"' (hours ++ '"' :: b) = some (utf8Len hours) := rfind_append hb
      have hslice : slice? (hours ++ '"' :: b) (utf8Len hours + 1) (utf8Len hours) = none :=
        if_neg (Nat.not_succ_le_self _)
      unfold parseTimeDate
      rw [find_char_append hhours]
      simp [sliceTo?_append, hrfind, hslice, hb]
  · have hcount : c.count '"' ≠ 1 := by simp [List.count_eq_zero_of_not_mem hquote]
    rw [parseTimeDate_unquoted hquote]
    simp [hcount]

/-- The number of a value can be cut off: some prefix has as many bytes as the number has
characters. -/
def Cuttable (env : Runtime F) (value : List Char) : Prop :=
  ∃ number, number <+: value ∧ utf8Len number = (numberRun env value).length

theorem sliceTo?_eq_none_iff {n : ℕ} :
    sliceTo? s n = none ↔ ¬ ∃ t, t <+: s ∧ utf8Len t = n := by
  rw [Option.eq_none_iff_forall_ne_some, not_exists]
  exact forall_congr' fun t => not_congr sliceTo?_eq_some_iff

theorem exists_sliceFrom?_of_sliceTo? {n : ℕ} {a : List Char} (h : sliceTo? s n = some a) :
    ∃ b, s = a ++ b ∧ sliceFrom? s n = some b := by
  obtain ⟨⟨b, rfl⟩, rfl⟩ := sliceTo?_eq_some_iff.mp h
  exact ⟨b, rfl, sliceFrom?_append a b⟩

theorem parseValueWithUnit_eq_panicked_iff :
    parseValueWithUnit env c = .panicked ↔ env.parseFloat c = none ∧ ¬ Cuttable env c := by
  unfold parseValueWithUnit
  cases hfloat : env.parseFloat c with
  | some value => simp
  | none =>
    dsimp only
    by_cases hrun : (numberRun env c).length > 0
    · rw [if_pos hrun]
      cases hto : sliceTo? c (numberRun env c).length with
      | none =>
        have hcut := sliceTo?_eq_none_iff.mp hto
        simp [Cuttable, hcut]
      | some number =>
        obtain ⟨rest, -, hfrom⟩ := exists_sliceFrom?_of_sliceTo? hto
        have hcut : Cuttable env c := ⟨number, sliceTo?_eq_some_iff.mp hto⟩
        simp [hfrom, hcut, bind_eq_panicked_iff]
    · have hcut : Cuttable env c := ⟨[], List.nil_prefix, by rw [utf8Len_nil]; omega⟩
      simp [if_neg hrun, hcut]

/-- The value of a vehicle property, its number not to be cut off. -/
def PropertySafe (env : Runtime F) (c : List Char) : Prop :=
  ∀ op property value, findComparison c = some (op, utf8Len property) →
    c = property ++ (op ++ value) → (VehicleProperty.fromStr (trim property)).isSome →
      env.parseFloat (trim value) = none → Cuttable env (trim value)

theorem fromStr_of_findComparison {op : List Char} {pos : ℕ}
    (h : findComparison s = some (op, pos)) :
    ∃ operator, ComparisonOperator.fromStr op = some operator := by
  have hall : ∀ op ∈ comparisons, (ComparisonOperator.fromStr op).isSome := by decide
  obtain ⟨op', hmem, hop⟩ := List.exists_of_findSome?_eq_some h
  obtain ⟨pos', -, heq⟩ := Option.map_eq_some_iff.mp hop
  cases heq
  exact Option.isSome_iff_exists.mp (hall op hmem)

/-- **A vehicle property panics on a value whose number cannot be cut off.** -/
theorem parseVehicleProperty_ne_panicked_iff :
    parseVehicleProperty env c ≠ .panicked ↔ PropertySafe env c := by
  unfold parseVehicleProperty PropertySafe
  cases hfound : findComparison c with
  | none => simp
  | some found =>
    obtain ⟨op, pos⟩ := found
    obtain ⟨property, value, hc, hto, hfrom⟩ := exists_of_findComparison hfound
    obtain ⟨operator, hop⟩ := fromStr_of_findComparison hfound
    obtain ⟨-, rfl⟩ := sliceTo?_eq_some_iff.mp hto
    simp only [hto, hfrom, hop, orPanic_some, orErr_some, ok_bind]
    constructor
    · intro h op' property' value' heq hc' hknown hfloat
      obtain ⟨rfl, hlen⟩ := Prod.mk.inj (Option.some.inj heq)
      have hproperty : property = property' := by
        have hto' := sliceTo?_append property' (op ++ value')
        rw [← hc', ← hlen, hto] at hto'
        exact Option.some.inj hto'
      subst hproperty
      have hvalue : value = value' :=
        List.append_cancel_left (List.append_cancel_left (hc.symm.trans hc'))
      subst hvalue
      by_contra hcut
      obtain ⟨known, hknown⟩ := Option.isSome_iff_exists.mp hknown
      have hpanic := parseValueWithUnit_eq_panicked_iff.mpr ⟨hfloat, hcut⟩
      exact h (by simp [hknown, hpanic])
    · intro h hpanic
      simp only [bind_eq_panicked_iff, orErr_ne_panicked, false_or, orErr_eq_ok_iff] at hpanic
      obtain ⟨known, hknown, hvalue | ⟨_, _, hvalue⟩⟩ := hpanic
      · obtain ⟨hfloat, hcut⟩ := parseValueWithUnit_eq_panicked_iff.mp hvalue
        exact hcut (h op property value rfl hc (by rw [hknown]; rfl) hfloat)
      · cases hvalue

theorem parseVehicleUsage_ne_panicked : parseVehicleUsage c ≠ .panicked := by
  unfold parseVehicleUsage
  split_ifs
  · simp
  · split
    · split
      · next op pos hfound =>
        obtain ⟨a, b, -, -, hfrom⟩ := exists_of_findComparison hfound
        simp [hfrom, bind_eq_panicked_iff]
      · simp
    · simp

theorem parseDuration_ne_panicked : parseDuration env c ≠ .panicked := by
  unfold parseDuration
  split
  · simp [bind_eq_panicked_iff]
  · simp

theorem parseStayDuration_ne_panicked : parseStayDuration env c ≠ .panicked := by
  unfold parseStayDuration
  split_ifs with hstay
  · obtain ⟨rest, rfl⟩ := hstay
    have hfrom : sliceFrom? ("stay".toList ++ rest) 4 = some rest := sliceFrom?_append _ rest
    rw [hfrom, orPanic_some, ok_bind]
    split
    · next op pos hfound =>
      obtain ⟨a, b, -, -, hfrom⟩ := exists_of_findComparison hfound
      simp [hfrom, bind_eq_panicked_iff, parseDuration_ne_panicked]
    · simp
  · simp

/-! ### The parser -/

/-- **The texts for which all cuts succeed.**  The offset of an operator, and the end of it, are
those of prefixes of the text itself, and both halves are safe.  A text without operator has no
single quotation mark, and is opening hours, or no vehicle property with a number that cannot be
cut off. -/
inductive Safe (env : Runtime F) : List Char → Prop
  | combined {s left before right : List Char} {operator : LogicalOperator} {pos : ℕ}
      (hfound : findOperator env (clean s) = some (operator, pos))
      (hleft : left <+: clean s) (hpos : utf8Len left = pos)
      (hright : clean s = before ++ right)
      (hend : utf8Len before = pos + utf8Len (token operator))
      (hsafeleft : Safe env (trim left)) (hsaferight : Safe env (trim right)) : Safe env s
  | single {s : List Char} (hfound : findOperator env (clean s) = none)
      (hquotes : (clean s).count '"' ≠ 1)
      (hvalue : (parseTimeDate env (clean s)).IsOk ∨ PropertySafe env (clean s)) : Safe env s

theorem orElse_eq_panicked_iff {α : Type} {x y : Outcome α} :
    x.orElse y = .panicked ↔ x = .panicked ∨ x.IsErr ∧ y = .panicked := by
  cases x <;> simp [IsErr]

/-- After the vehicle properties, no grammar panics. -/
theorem dispatch_eq_panicked_iff {parse : List Char → Outcome (ConditionType F)} :
    dispatch env parse c = .panicked ↔
      parseCombinedCondition env parse c = .panicked ∨
        (parseCombinedCondition env parse c).IsErr ∧ (parseTimeDate env c = .panicked ∨
          (parseTimeDate env c).IsErr ∧ (parseSeason c).IsErr ∧ (parseRoadCondition c).IsErr ∧
            parseVehicleProperty env c = .panicked) := by
  simp only [dispatch, orElse_eq_panicked_iff, map_eq_panicked_iff, isErr_map_iff,
    parseVehicleUsage_ne_panicked, parseStayDuration_ne_panicked, parseSeason, parseRoadCondition,
    parseUserGroup, parsePurpose, orErr_ne_panicked, false_or, and_false, or_false, reduceCtorEq]

/-- A combined condition is parsed without a panic if its halves are, once it is cut in two. -/
theorem parseCombinedCondition_ne_panicked_iff {operator : LogicalOperator} {pos : ℕ}
    (hfound : findOperator env c = some (operator, pos)) :
    parseCombinedCondition env (parse env) c ≠ .panicked ↔
      ∃ left right, sliceTo? c pos = some left ∧
        sliceFrom? c (pos + utf8Len (token operator)) = some right ∧
          parse env (trim left) ≠ .panicked ∧ parse env (trim right) ≠ .panicked := by
  unfold parseCombinedCondition
  rw [hfound]
  dsimp only
  cases hleft : sliceTo? c pos with
  | none => simp
  | some left =>
    cases hright : sliceFrom? c (pos + utf8Len (token operator)) with
    | none => simp
    | some right =>
      have hnoterr := @parse_ne_err F env (trim left)
      cases hl : parse env (trim left) with
      | ok l => simp [bind_eq_panicked_iff, hl]
      | err e => exact absurd hl (hnoterr e)
      | panicked => simp [hl]

/-- Where an operator is found, the grammar of combined conditions rejects nothing. -/
theorem not_isErr_parseCombinedCondition {operator : LogicalOperator} {pos : ℕ}
    (hfound : findOperator env c = some (operator, pos)) :
    ¬ (parseCombinedCondition env (parse env) c).IsErr := by
  rintro ⟨e, he⟩
  unfold parseCombinedCondition at he
  rw [hfound] at he
  simp only [bind_eq_err_iff, orPanic_ne_err, parse_ne_err, false_or, pure_eq, reduceCtorEq,
    and_false, exists_false] at he

theorem isOk_or_isErr {α : Type} {x : Outcome α} (h : x ≠ .panicked) : x.IsOk ∨ x.IsErr := by
  cases x with
  | ok a => exact .inl ⟨a, rfl⟩
  | err e => exact .inr ⟨e, rfl⟩
  | panicked => exact absurd rfl h

/-- The names of seasons and of states of the road have no comparison in them, and could be those
of loads. -/
theorem name_facts (h : (parseSeason c).IsOk ∨ (parseRoadCondition c).IsOk) :
    findComparison c = none ∧ parseVehicleUsage c = .ok (.load c) := by
  obtain ⟨season, h⟩ | ⟨road, h⟩ := h
  · rw [← name_of_fromName (orErr_eq_ok_iff.mp h)]
    cases season <;> decide
  · rw [← name_of_fromName (orErr_eq_ok_iff.mp h)]
    cases road <;> decide

theorem propertySafe_of_name (h : (parseSeason c).IsOk ∨ (parseRoadCondition c).IsOk) :
    PropertySafe env c := by
  intro op property value hfound
  rw [(name_facts h).1] at hfound
  cases hfound

/-- A text without operator. -/
theorem dispatch_ne_panicked_iff (hfound : findOperator env c = none) :
    dispatch env (parse env) c ≠ .panicked ↔
      c.count '"' ≠ 1 ∧ ((parseTimeDate env c).IsOk ∨ PropertySafe env c) := by
  have hcombined : parseCombinedCondition env (parse env) c = .err .notCombinedCondition := by
    unfold parseCombinedCondition
    rw [hfound]
  have hquotes : c.count '"' ≠ 1 ↔ parseTimeDate env c ≠ .panicked :=
    not_congr parseTimeDate_eq_panicked_iff.symm
  rw [hquotes, ne_eq, dispatch_eq_panicked_iff, hcombined, ← parseVehicleProperty_ne_panicked_iff]
  have herr : (err .notCombinedCondition : Outcome (ConditionType F)).IsErr := ⟨_, rfl⟩
  simp only [reduceCtorEq, false_or, herr, true_and, not_or]
  refine and_congr_right fun htime => ⟨fun h => ?_, ?_⟩
  · by_contra hnot
    obtain ⟨hok, hproperty⟩ := not_or.mp hnot
    have hname := mt propertySafe_of_name (mt parseVehicleProperty_ne_panicked_iff.mpr hproperty)
    obtain ⟨hseason, hroad⟩ := not_or.mp hname
    exact h ⟨(isOk_or_isErr htime).resolve_left hok, isErr_orErr_of_not_isOk hseason,
      isErr_orErr_of_not_isOk hroad, not_not.mp hproperty⟩
  · rintro (hok | hproperty) ⟨htimeerr, -, -, hpanic⟩
    · exact htimeerr.not_isOk hok
    · exact hproperty hpanic

theorem parse_ne_panicked_iff_of_none (hfound : findOperator env (clean s) = none) :
    parse env s ≠ .panicked ↔ (clean s).count '"' ≠ 1 ∧
      ((parseTimeDate env (clean s)).IsOk ∨ PropertySafe env (clean s)) := by
  rw [parse_eq, dispatch_ne_panicked_iff hfound]

theorem parse_ne_panicked_iff_of_some {operator : LogicalOperator} {pos : ℕ}
    (hfound : findOperator env (clean s) = some (operator, pos)) :
    parse env s ≠ .panicked ↔
      ∃ left right, sliceTo? (clean s) pos = some left ∧
        sliceFrom? (clean s) (pos + utf8Len (token operator)) = some right ∧
          parse env (trim left) ≠ .panicked ∧ parse env (trim right) ≠ .panicked := by
  rw [← parseCombinedCondition_ne_panicked_iff hfound, parse_eq, ne_eq, dispatch_eq_panicked_iff,
    not_or]
  exact and_iff_left_of_imp fun _ h => not_isErr_parseCombinedCondition hfound h.1

theorem safe_of_ne_panicked (s : List Char) (h : parse env s ≠ .panicked) : Safe env s := by
  cases hfound : findOperator env (clean s) with
  | none =>
    obtain ⟨hquotes, hvalue⟩ := (parse_ne_panicked_iff_of_none hfound).mp h
    exact .single hfound hquotes hvalue
  | some found =>
    obtain ⟨operator, pos⟩ := found
    obtain ⟨left, right, hleft, hright, hl, hr⟩ := (parse_ne_panicked_iff_of_some hfound).mp h
    have hlt := length_half_lt hleft hright
    have hle := length_clean_le s
    obtain ⟨hpre, hpos⟩ := sliceTo?_eq_some_iff.mp hleft
    obtain ⟨before, hsplit, hend⟩ := sliceFrom?_eq_some_iff.mp hright
    exact .combined hfound hpre hpos hsplit hend (safe_of_ne_panicked (trim left) hl)
      (safe_of_ne_panicked (trim right) hr)
termination_by s.length
decreasing_by all_goals omega

theorem Safe.ne_panicked (h : Safe env s) : parse env s ≠ .panicked := by
  induction h with
  | combined hfound hleft hpos hright hend _ _ ihleft ihright =>
    exact (parse_ne_panicked_iff_of_some hfound).mpr ⟨_, _, sliceTo?_eq_some_iff.mpr ⟨hleft, hpos⟩,
      sliceFrom?_eq_some_iff.mpr ⟨_, hright, hend⟩, ihleft, ihright⟩
  | single hfound hquotes hvalue =>
    exact (parse_ne_panicked_iff_of_none hfound).mpr ⟨hquotes, hvalue⟩

/-- **Which texts are parsed without a panic.** -/
theorem parse_ne_panicked_iff : parse env s ≠ .panicked ↔ Safe env s :=
  ⟨safe_of_ne_panicked s, Safe.ne_panicked⟩

/-- A quotation mark alone. -/
theorem quote_panics : parse Runtime.whole ['"'] = .panicked := by
  decide

end Condition

end Routers
