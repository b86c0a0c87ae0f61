import Routers.Codec.ConditionPanics

/-!
# Conditions as they are printed

What the grammars make of a text that the printer has written: whether an operator is found in
it, where its comparison is, and which of the grammars reject it.

## Main definitions

* `Condition.isWordChar` — the characters of a number, a name or a comparison.

## Main results

* `Condition.findOperator_append`, `Condition.findOperator_quoted` — no operator is found in what
  is printed around a text without one.
* `Condition.findComparison_append` — **the comparison that is printed is found again.**
* `Condition.isErr_parseTimeDate_word` — a word with a comparison is no time condition.

## References

`src/libs/routers_codec/src/osm/parsers/primitives/condition.rs`.
-/

namespace Routers

open Text Outcome

namespace Condition

variable {F : Type} {env : Runtime F} {s a b u c : List Char} {d : Char}

/-! ### Operators -/

theorem token_eq (operator : LogicalOperator) :
    token operator = ' ' :: (operator.name.toList ++ [' ']) := rfl

theorem findOperator_eq_none_iff :
    findOperator env s = none ↔ ∀ operator, ¬ token operator <:+: env.uppercase s := by
  have hand : find " AND ".toList (env.uppercase s) = none ↔
      ¬ token .and <:+: env.uppercase s := find_eq_none_iff
  have hor : find " OR ".toList (env.uppercase s) = none ↔
      ¬ token .or <:+: env.uppercase s := find_eq_none_iff
  have hall : (∀ operator, ¬ token operator <:+: env.uppercase s) ↔
      find " AND ".toList (env.uppercase s) = none ∧
        find " OR ".toList (env.uppercase s) = none := by
    rw [hand, hor]
    constructor
    · intro h
      exact ⟨h .and, h .or⟩
    · rintro ⟨h1, h2⟩ operator
      cases operator <;> assumption
  rw [hall, findOperator]
  cases find " AND ".toList (env.uppercase s) with
  | none => simp
  | some pos => simp

@[simp] theorem uppercase_append :
    env.uppercase (a ++ b) = env.uppercase a ++ env.uppercase b := by
  simp [Unicode.uppercase]

/-- A part of a text without operator has none. -/
theorem findOperator_of_isInfix (h : u <:+: c) (hc : findOperator env c = none) :
    findOperator env u = none := by
  obtain ⟨a, b, rfl⟩ := h
  rw [findOperator_eq_none_iff] at hc ⊢
  intro operator hpart
  refine hc operator (hpart.trans ⟨env.uppercase a, env.uppercase b, ?_⟩)
  simp

/-- ASCII other than a blank is no blank in upper case. -/
theorem not_mem_uppercase (h : ∀ c ∈ s, c.toNat < 128 ∧ c ≠ ' ') : ' ' ∉ env.uppercase s := by
  intro hmem
  obtain ⟨c, hc, hblank⟩ := List.mem_flatMap.mp hmem
  obtain ⟨hascii, hne⟩ := h c hc
  rw [env.toUppercase_ascii c hascii, List.mem_singleton] at hblank
  revert hblank hne
  refine forall_ascii (P := fun c => ' ' = c.toUpper → c ≠ ' ' → False) ?_ c hascii
  decide

/-- No operator is found in what is printed before a text without one. -/
theorem findOperator_append (ha : ∀ c ∈ a, c.toNat < 128 ∧ c ≠ ' ')
    (hu : findOperator env u = none) : findOperator env (a ++ u) = none := by
  rw [findOperator_eq_none_iff] at hu ⊢
  intro operator hinfix
  rw [uppercase_append, token_eq] at hinfix
  exact hu operator (infix_of_infix_append (not_mem_uppercase ha) hinfix)

theorem findOperator_nil : findOperator env [] = none := by
  rw [findOperator_eq_none_iff]
  intro operator hinfix
  exact List.cons_ne_nil _ _ (List.infix_nil.mp hinfix)

theorem findOperator_word (ha : ∀ c ∈ a, c.toNat < 128 ∧ c ≠ ' ') :
    findOperator env a = none := by
  rw [← List.append_nil a]
  exact findOperator_append ha findOperator_nil

/-- No operator is found in opening hours and a comment without one. -/
theorem findOperator_quoted (ha : ∀ c ∈ a, c.toNat < 128 ∧ c ≠ ' ')
    (hu : findOperator env u = none) :
    findOperator env (a ++ ' ' :: '"' :: (u ++ ['"'])) = none := by
  have hquote : env.toUppercase '"' = ['"'] := env.toUppercase_ascii '"' (by decide)
  have hblank : env.toUppercase ' ' = [' '] := env.toUppercase_ascii ' ' (by decide)
  have hupper : env.uppercase (a ++ ' ' :: '"' :: (u ++ ['"']))
      = (env.uppercase a ++ [' ']) ++ '"' :: (env.uppercase u ++ '"' :: []) := by
    simp [Unicode.uppercase, hquote, hblank]
  have htoken : ∀ operator, '"' ∉ token operator := by
    intro operator
    cases operator <;> decide
  rw [findOperator_eq_none_iff] at hu ⊢
  intro operator hinfix
  rw [hupper] at hinfix
  -- No operator reaches across a quotation mark.
  obtain hinfix | hinfix := infix_or_infix (htoken operator) hinfix
  · rw [token_eq] at hinfix
    -- Before the first there is one blank, and an operator has two.
    have hlen := (infix_of_infix_append (not_mem_uppercase ha) hinfix).length_le
    cases operator <;> exact absurd hlen (by decide)
  · obtain hinfix | hinfix := infix_or_infix (htoken operator) hinfix
    · exact hu operator hinfix
    · exact List.cons_ne_nil _ _ (List.infix_nil.mp hinfix)

/-! ### Cleaning -/

/-- A trimmed text that begins with no parenthesis is clean. -/
theorem clean_eq_self (htrim : trim s = s) (hparen : s.head? ≠ some '(') : clean s = s := by
  simp only [clean, htrim]
  apply if_neg
  rintro ⟨h, -⟩
  exact hparen h

theorem clean_isInfix (s : List Char) : clean s <:+: s := by
  refine List.IsInfix.trans ?_ trim_isInfix
  simp only [clean]
  split_ifs
  · exact (List.dropLast_prefix _).isInfix.trans (List.tail_suffix _).isInfix
  · exact List.infix_rfl

theorem clean_trim (s : List Char) : clean (trim s) = clean s := by
  simp only [clean, trim_trim]

/-- Blanks around a text are of no account. -/
theorem parse_trim (s : List Char) : parse env (trim s) = parse env s := by
  rw [parse_eq, parse_eq s, clean_trim]

/-- A text that cleaning leaves as it is is parsed as it was before. -/
theorem parse_clean (h : clean (clean s) = clean s) : parse env (clean s) = parse env s := by
  rw [parse_eq, parse_eq s, h]

/-! ### Comparisons -/

/-- The characters of comparisons. -/
def isComparisonChar (c : Char) : Bool := c == '<' || c == '>' || c == '='

theorem isComparisonChar_of_mem :
    ∀ op ∈ comparisons, op ≠ [] ∧ ∀ c ∈ op, isComparisonChar c := by
  decide

/-- No comparison is part of one that is looked for after it. -/
theorem pairwise_comparisons : comparisons.Pairwise fun e op => ¬ e <:+: op := by
  decide

/-- **The comparison that is printed is found again**, before a number and a text in which the
comparisons looked for before it do not occur. -/
theorem findComparison_append {op d : List Char} {before after : List (List Char)}
    (hop : comparisons = before ++ op :: after) (ha : ∀ c ∈ a, isComparisonChar c = false)
    (hd : d ≠ []) (hdc : ∀ c ∈ d, isComparisonChar c = false)
    (hu : ∀ e ∈ before, ¬ e <:+: u) :
    findComparison (a ++ (op ++ (d ++ u))) = some (op, utf8Len a) := by
  have hmem : ∀ e ∈ before ++ op :: after, e ≠ [] ∧ ∀ c ∈ e, isComparisonChar c := by
    rw [← hop]
    exact isComparisonChar_of_mem
  have hnot : ∀ {e : List Char} {c : Char} {x : List Char},
      (∀ c ∈ e, isComparisonChar c) → (∀ c ∈ x, isComparisonChar c = false) → c ∈ e → c ∉ x := by
    intro e c x he hx hce hcx
    have := hx c hcx
    rw [he c hce] at this
    cases this
  rw [findComparison, List.findSome?_eq_some_iff]
  refine ⟨before, op, after, hop, ?_, ?_⟩
  · -- The name before has none of its characters.
    obtain ⟨hne, hchars⟩ := hmem op (by simp)
    obtain ⟨q, op, rfl⟩ := List.exists_cons_of_ne_nil hne
    rw [find_append_of_not_mem (hnot hchars ha List.mem_cons_self)]
    rfl
  · intro e he
    obtain ⟨hne, hchars⟩ := hmem e (by simp [he])
    obtain ⟨q, e, rfl⟩ := List.exists_cons_of_ne_nil hne
    rw [Option.map_eq_none_iff, find_eq_none_iff]
    intro hinfix
    have hq := infix_of_infix_append (hnot hchars ha List.mem_cons_self) hinfix
    obtain ⟨d0, d, rfl⟩ := List.exists_cons_of_ne_nil hd
    have hd0 : d0 ∉ q :: e := by
      intro hmem
      exact hnot hchars hdc hmem List.mem_cons_self
    rw [List.cons_append] at hq
    -- An earlier comparison is in the one printed, or behind the number, not across it.
    obtain hq | hq := infix_or_infix hd0 hq
    · have hpairwise := pairwise_comparisons
      rw [hop, List.pairwise_append] at hpairwise
      exact hpairwise.2.2 _ he op List.mem_cons_self hq
    · have hdc' : ∀ c ∈ d, isComparisonChar c = false := by
        intro c hc
        exact hdc c (List.mem_cons_of_mem _ hc)
      exact hu _ he (infix_of_infix_append (hnot hchars hdc' List.mem_cons_self) hq)

/-! ### Words with a comparison -/

/-- The characters of names, numbers and comparisons. -/
def isWordChar (c : Char) : Bool := c.isAlphanum || c == '.' || c == '-' || isComparisonChar c

theorem isWordChar_ascii (h : isWordChar d) : d.toNat < 128 := by
  by_cases hrule : isRuleChar d
  · exact isRuleChar_ascii hrule
  · simp only [isRuleChar, isWordChar, isComparisonChar, Bool.or_eq_true, beq_iff_eq,
      not_or] at h hrule
    obtain ((h | rfl) | rfl) | (rfl | rfl) | rfl := h
    · exact absurd h hrule.1.1.1
    all_goals decide

theorem wordChar_facts (h : isWordChar d) : isWhitespace d = false ∧ d ≠ ' ' ∧ d ≠ '(' ∧
    d.toLower ≠ '/' ∧ d ≠ ';' ∧ d ≠ ':' ∧ d ≠ '"' ∧ d ≠ ',' := by
  refine forall_ascii (P := fun d => isWordChar d → isWhitespace d = false ∧ d ≠ ' ' ∧ d ≠ '(' ∧
    d.toLower ≠ '/' ∧ d ≠ ';' ∧ d ≠ ':' ∧ d ≠ '"' ∧ d ≠ ',') ?_ d (isWordChar_ascii h) h
  decide

/-- A word before a trimmed text is left where it is. -/
theorem clean_word_append (ha : ∀ d ∈ a, isWordChar d) (hne : a ≠ []) (hu : trim u = u) :
    clean (a ++ u) = a ++ u := by
  refine clean_eq_self (trim_append_of_forall ?_ hu) ?_
  · intro d hd
    exact (wordChar_facts (ha d hd)).1
  · obtain ⟨d, a, rfl⟩ := List.exists_cons_of_ne_nil hne
    rw [List.cons_append, List.head?_cons, ne_eq, Option.some.injEq]
    exact (wordChar_facts (ha d List.mem_cons_self)).2.2.1

theorem findOperator_word_append (ha : ∀ d ∈ a, isWordChar d)
    (hu : findOperator env u = none) : findOperator env (a ++ u) = none := by
  refine findOperator_append ?_ hu
  intro d hd
  exact ⟨isWordChar_ascii (ha d hd), (wordChar_facts (ha d hd)).2.1⟩

/-- A text with a comparison names no weekday. -/
theorem weekday_fromStr_eq_none {unicode : Unicode} (hs : ∀ c ∈ s, c.toNat < 128) (hd : d ∈ s)
    (hcomp : isComparisonChar d) : Weekday.fromStr unicode s = none := by
  have hlower : d ∈ unicode.toLowercase s := by
    rw [unicode.toLowercase_ascii s hs, List.mem_map]
    refine ⟨d, hd, ?_⟩
    simp only [isComparisonChar, Bool.or_eq_true, beq_iff_eq] at hcomp
    obtain (rfl | rfl) | rfl := hcomp <;> decide
  have hne : ∀ name : List Char, (∀ c ∈ name, isComparisonChar c = false) →
      unicode.toLowercase s ≠ name := by
    rintro _ hname rfl
    have := hname d hlower
    rw [hcomp] at this
    cases this
  unfold Weekday.fromStr
  dsimp only
  repeat rw [if_neg (not_or.mpr ⟨hne _ (by decide), hne _ (by decide)⟩)]

theorem parseWeekdayRange_word {unicode : Unicode} (ha : '-' ∉ a) (hcomp : isComparisonChar d)
    (hchars : ∀ c ∈ a ++ d :: b, isWordChar c) (weekdays : WeekdayRange) :
    OpeningHoursParser.parseWeekdayRange unicode (a ++ d :: b) ≠ .ok weekdays := by
  have hascii : ∀ c ∈ a ++ d :: b, c.toNat < 128 := by
    intro c hc
    exact isWordChar_ascii (hchars c hc)
  have hcomma : ',' ∉ a ++ d :: b := by
    intro hc
    exact (wordChar_facts (hchars ',' hc)).2.2.2.2.2.2.2 rfl
  intro h
  simp only [OpeningHoursParser.parseWeekdayRange] at h
  split_ifs at h
  · -- The first part of a range still has the comparison, as it comes before any hyphen.
    have hd : d ≠ '-' := by
      rintro rfl
      cases hcomp
    have ha' : '-' ∉ a ++ [d] := by simp [ha, hd.symm]
    obtain ⟨t, rest, b', hsplit, hb⟩ := exists_splitOn_append (b := b) ha'
    rw [List.append_assoc, List.append_assoc, List.singleton_append, List.singleton_append] at hsplit
    have hnone : Weekday.fromStr unicode (a ++ d :: t) = none := by
      refine weekday_fromStr_eq_none ?_ (by simp) hcomp
      intro c hc
      apply hascii c
      rw [hb, ← List.cons_append, ← List.append_assoc]
      exact List.mem_append_left b' hc
    rw [hsplit] at h
    split at h
    · next heq =>
      rw [← (List.cons.inj heq).1, hnone] at h
      cases h
    · cases h
  · rw [exceptBind_eq_ok_iff] at h
    obtain ⟨day, hday, -⟩ := h
    rw [weekday_fromStr_eq_none hascii (by simp) hcomp] at hday
    cases hday

theorem parseRule_comparison {unicode : Unicode} (ha : '-' ∉ a) (hcomp : isComparisonChar d)
    (hchars : ∀ c ∈ a ++ d :: b, isWordChar c) (rule : OpeningRule) :
    OpeningHoursParser.parseRule unicode (a ++ d :: b) ≠ .ok rule := by
  have hblank : ∀ c ∈ a ++ d :: b, isWhitespace c = false := by
    intro c hc
    exact (wordChar_facts (hchars c hc)).1
  have hcolon : ':' ∉ a ++ d :: b := by
    intro hc
    exact (wordChar_facts (hchars ':' hc)).2.2.2.2.2.1 rfl
  have hname : ∀ name : List Char, (∀ e ∈ ['<', '>', '='], ∀ c ∈ name, c.toLower ≠ e.toLower) →
      eqIgnoreAsciiCase (a ++ d :: b) name = false := by
    intro name hname
    apply eqIgnoreAsciiCase_eq_false_left (List.mem_append_right a List.mem_cons_self)
    apply hname d
    simp only [isComparisonChar, Bool.or_eq_true, beq_iff_eq] at hcomp
    simpa [or_assoc] using hcomp
  rw [OpeningHoursParser.parseRule_word (by simp) hblank (hname _ (by decide))
    (hname _ (by decide)), OpeningHoursParser.parseWord,
    if_neg (by simp [OpeningHoursParser.looksLikeTime, hcolon])]
  split
  · simp
  · next weekdays heq => exact absurd heq (parseWeekdayRange_word ha hcomp hchars weekdays)

/-- **A word with a comparison is no opening hours.** -/
theorem parse_hours_word {unicode : Unicode} (ha : '-' ∉ a) (hcomp : isComparisonChar d)
    (hchars : ∀ c ∈ a ++ d :: b, isWordChar c) (hours : OpeningHours) :
    OpeningHoursParser.parse unicode (a ++ d :: b) ≠ .ok hours := by
  have htrim : trim (a ++ d :: b) = a ++ d :: b := by
    apply trim_eq_self_of_forall
    intro c hc
    exact (wordChar_facts (hchars c hc)).1
  have halways : eqIgnoreAsciiCase (a ++ d :: b) "24/7".toList = false := by
    apply eqIgnoreAsciiCase_eq_false_right (c := '/') (by decide)
    intro c hc
    exact (wordChar_facts (hchars c hc)).2.2.2.1
  have hsemi : ';' ∉ a ++ d :: b := by
    intro hc
    exact (wordChar_facts (hchars ';' hc)).2.2.2.2.1 rfl
  intro h
  simp only [OpeningHoursParser.parse, htrim, halways, List.splitOn_eq_singleton hsemi,
    exceptBind_eq_ok_iff, Bool.false_eq_true, if_false] at h
  obtain ⟨rules, hrules, -⟩ := h
  rw [mapM_eq_ok_iff, List.forall₂_cons_left_iff] at hrules
  obtain ⟨rule, -, hrule, -⟩ := hrules
  rw [htrim] at hrule
  exact parseRule_comparison ha hcomp hchars rule hrule

/-- **A word with a comparison is no time condition.** -/
theorem isErr_parseTimeDate_word (ha : '-' ∉ a) (hcomp : isComparisonChar d)
    (hchars : ∀ c ∈ a ++ d :: b, isWordChar c) :
    (parseTimeDate env (a ++ d :: b)).IsErr := by
  have hquote : '"' ∉ a ++ d :: b := by
    intro hc
    exact (wordChar_facts (hchars '"' hc)).2.2.2.2.2.2.1 rfl
  rw [parseTimeDate_unquoted hquote, isErr_map_iff]
  cases hhours : OpeningHoursParser.parse env.toUnicode (a ++ d :: b) with
  | error e => exact ⟨_, rfl⟩
  | ok hours => exact absurd hhours (parse_hours_word ha hcomp hchars hours)

/-- A text with a comparison is the name of no season and of no state of the road. -/
theorem isErr_parseSeason (hd : d ∈ s) (hcomp : isComparisonChar d) : (parseSeason s).IsErr := by
  have hnot : ∀ season : SeasonCondition, d ∉ season.name.toList := by
    intro season hmem
    have hall : ∀ c ∈ season.name.toList, isComparisonChar c = false := by
      cases season <;> decide
    simp [hall d hmem] at hcomp
  rw [parseSeason, SeasonCondition.fromStr, fromName_eq_none hd hnot]
  exact ⟨_, rfl⟩

theorem isErr_parseRoadCondition (hd : d ∈ s) (hcomp : isComparisonChar d) :
    (parseRoadCondition s).IsErr := by
  have hnot : ∀ road : RoadCondition, d ∉ road.name.toList := by
    intro road hmem
    have hall : ∀ c ∈ road.name.toList, isComparisonChar c = false := by
      cases road <;> decide
    simp [hall d hmem] at hcomp
  rw [parseRoadCondition, RoadCondition.fromStr, fromName_eq_none hd hnot]
  exact ⟨_, rfl⟩

end Condition

end Routers
