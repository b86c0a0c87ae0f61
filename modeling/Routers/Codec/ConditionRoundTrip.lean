import Routers.Codec.ConditionPrinted

/-!
# Printing and parsing conditions

A condition that is printed is parsed again.  The printer writes the times of opening hours
directly behind the weekdays, drops rules that say closed, writes a unit directly behind its
number, and joins the halves of a combined condition without parentheses.

## Main definitions

* `Condition.RoundTrips` — the texts whose conditions survive being printed and parsed again.
* `Condition.Legible` — what a text is printed as, where that is legible.
* `Condition.FoundAgain` — operators are found where the printer writes them, or not at all.

## Main results

* `Condition.Legible.readBack` — what is printed legibly is read back.
* `Condition.legible_of_readBack` — what is read back was printed legibly.
* `Condition.survives_roundTrips` — **which texts survive.**

## References

`src/libs/routers_codec/src/osm/parsers/primitives/condition.rs`.
-/

namespace Routers

open Text Outcome

namespace Condition

variable {F : Type} {env : Runtime F} {s c t : List Char} {condition : ConditionType F}

/-- A text that is parsed is printed as a text that is parsed as an equal condition. -/
def RoundTrips (env : Runtime F) (s : List Char) : Prop :=
  ∀ condition, parse env s = .ok condition → ReadBack env condition

/-- **What a text is printed as, where that is legible.**  Rules of opening hours are plain, a unit
is told apart from its number, what is kept as it was written is as clean as it can be, and the
operator that joins two halves is found between them. -/
inductive Legible (env : Runtime F) : List Char → List Char → Prop
  | timeDate {s : List Char} {td : TimeDateCondition} (hfound : findOperator env (clean s) = none)
      (h : parseTimeDate env (clean s) = .ok td)
      (hplain : ∀ rule ∈ td.openingHours.rules, rule.Plain) :
      Legible env s ((ConditionType.timeDate td).display env)
  | vehicleProperty {s : List Char} {vp : VehiclePropertyCondition F}
      (hfound : findOperator env (clean s) = none) (htime : (parseTimeDate env (clean s)).IsErr)
      (h : parseVehicleProperty env (clean s) = .ok vp) (hlegible : LegibleProperty env vp) :
      Legible env s ((ConditionType.vehicleProperty vp).display env)
  | occupants {s : List Char} {operator : ComparisonOperator} {count : ℕ}
      (hfound : findOperator env (clean s) = none) (htime : (parseTimeDate env (clean s)).IsErr)
      (hproperty : (parseVehicleProperty env (clean s)).IsErr)
      (h : parseVehicleUsage (clean s) = .ok (.occupants operator count)) :
      Legible env s ((ConditionType.vehicleUsage (.occupants operator count)).display env)
  | kept {s : List Char} (hfound : findOperator env (clean s) = none)
      (htime : (parseTimeDate env (clean s)).IsErr)
      (hproperty : (parseVehicleProperty env (clean s)).IsErr)
      (husage : ∀ operator count, parseVehicleUsage (clean s) ≠ .ok (.occupants operator count))
      (hclean : clean (clean s) = clean s) : Legible env s (clean s)
  | combined {s left right l r : List Char} {operator : LogicalOperator} {pos : ℕ}
      (hfound : findOperator env (clean s) = some (operator, pos))
      (hleft : sliceTo? (clean s) pos = some left)
      (hright : sliceFrom? (clean s) (pos + utf8Len (token operator)) = some right)
      (hlegibleleft : Legible env (trim left) l) (hlegibleright : Legible env (trim right) r)
      (hclean : clean (l ++ (token operator ++ r)) = l ++ (token operator ++ r))
      (hplace : findOperator env (l ++ (token operator ++ r)) = some (operator, utf8Len l)) :
      Legible env s (l ++ (token operator ++ r))

/-- The texts that survive: those that the parser panics on, and those that are printed legibly. -/
def Survives (env : Runtime F) (s : List Char) : Prop :=
  ¬ Safe env s ∨ ∃ t, Legible env s t

/-! ### Legible texts are read back -/

/-- A text with a comparison, or with occupants, is the name of nothing. -/
theorem isErr_names (h : findComparison c ≠ none ∨ parseVehicleUsage c ≠ .ok (.load c)) :
    (parseSeason c).IsErr ∧ (parseRoadCondition c).IsErr := by
  have hnot : ¬ ((parseSeason c).IsOk ∨ (parseRoadCondition c).IsOk) := by
    intro hname
    obtain ⟨hnone, hload⟩ := name_facts hname
    exact h.elim (fun h => h hnone) fun h => h hload
  obtain ⟨hseason, hroad⟩ := not_or.mp hnot
  exact ⟨isErr_orErr_of_not_isOk hseason, isErr_orErr_of_not_isOk hroad⟩

theorem findComparison_ne_none {vp : VehiclePropertyCondition F}
    (h : parseVehicleProperty env c = .ok vp) : findComparison c ≠ none := by
  intro hnone
  rw [parseVehicleProperty, hnone] at h
  cases h

/-- A text that is neither times, nor a property, nor a number of occupants, is kept. -/
theorem exists_verbatim (hfound : findOperator env (clean s) = none)
    (htime : (parseTimeDate env (clean s)).IsErr)
    (hproperty : (parseVehicleProperty env (clean s)).IsErr)
    (husage : ∀ operator count, parseVehicleUsage (clean s) ≠ .ok (.occupants operator count)) :
    ∃ condition, parse env s = .ok condition ∧ Verbatim condition := by
  have hcombined := @isErr_parseCombinedCondition F env (clean s) (parse env) hfound
  cases hparse : parse env s with
  | err e => exact absurd hparse (parse_ne_err s e)
  | panicked =>
    rw [parse_eq, dispatch_eq_panicked_iff] at hparse
    obtain h | ⟨-, h | ⟨-, -, -, h⟩⟩ := hparse
    · exact absurd h hcombined.ne_panicked
    · exact absurd h htime.ne_panicked
    · exact absurd h hproperty.ne_panicked
  | ok condition =>
    refine ⟨condition, rfl, ?_⟩
    cases parse_eq_ok_iff.mp hparse with
    | combined h => exact hcombined.not_isOk ⟨_, h⟩
    | timeDate _ h => exact htime.not_isOk ⟨_, h⟩
    | vehicleProperty _ _ _ _ h => exact hproperty.not_isOk ⟨_, h⟩
    | stayDuration _ husageerr _ _ h =>
      -- Loads are taken before stays.
      exact @not_isErr_parseVehicleUsage F env _ (.inr (.inr ⟨_, h⟩)) husageerr
    | @vehicleUsage usage _ h =>
      cases usage with
      | occupants operator count => exact husage operator count h
      | hazmat | load => trivial
    | season | roadCondition | userGroup | purpose | raw => trivial

/-- **What is printed legibly is read back.**  By induction on what is legible: an operator cuts
the printed text where it has joined the halves. -/
theorem Legible.readBack (h : Legible env s t) :
    ∃ condition, parse env s = .ok condition ∧ condition.display env = t ∧
      ReadBack env condition := by
  induction h with
  | timeDate hfound h hplain =>
    refine ⟨_, parse_eq_ok_iff.mpr (.timeDate (isErr_parseCombinedCondition hfound) h), rfl, ?_⟩
    exact (readBack_timeDate_iff (timeOf_of_parseTimeDate h) hfound).mpr hplain
  | vehicleProperty hfound htime h hlegible =>
    obtain ⟨hseason, hroad⟩ := isErr_names (.inl (findComparison_ne_none h))
    refine ⟨_, parse_eq_ok_iff.mpr (.vehicleProperty (isErr_parseCombinedCondition hfound) htime
      hseason hroad h), rfl, ?_⟩
    exact (readBack_vehicleProperty_iff (propertyOf_of_parseVehicleProperty h) hfound).mpr hlegible
  | occupants hfound htime hproperty h =>
    obtain ⟨hseason, hroad⟩ := isErr_names (.inr (by rw [h]; simp))
    refine ⟨_, parse_eq_ok_iff.mpr (.vehicleUsage ⟨isErr_parseCombinedCondition hfound, htime,
      hseason, hroad, hproperty⟩ h), rfl, ?_⟩
    obtain ⟨hhazmat, -⟩ | hload | ⟨_, _, heq, hcount⟩ := usage_of_parseVehicleUsage h
    · cases hhazmat
    · cases hload
    · cases heq
      exact readBack_occupants hcount
  | kept hfound htime hproperty husage hclean =>
    obtain ⟨condition, hparse, hverbatim⟩ := exists_verbatim hfound htime hproperty husage
    have hchosen := parse_eq_ok_iff.mp hparse
    exact ⟨condition, hparse, display_of_chosen hchosen hverbatim,
      (readBack_verbatim_iff hchosen hverbatim).mpr hclean⟩
  | @combined s left right _ _ operator pos hfound hleft hright _ _ hclean hplace ihl ihr =>
    obtain ⟨l, hl, rfl, hreadl⟩ := ihl
    obtain ⟨r, hr, rfl, hreadr⟩ := ihr
    rw [← display_combined_eq] at hclean hplace ⊢
    refine ⟨.combined l operator r, parse_eq_ok_iff.mpr (.combined ?_), rfl, ?_⟩
    · simp only [parseCombinedCondition, hfound, hleft, hright, orPanic_some, ok_bind, hl, hr]
      rfl
    · exact (readBack_combined_iff hclean hplace).mpr ⟨hreadl, hreadr⟩

/-! ### What is read back was printed legibly -/

/-- The operators of a printed condition are found again where the printer writes them, or they
are not found at all. -/
def FoundAgain (env : Runtime F) : ConditionType F → Prop
  | .combined l o r =>
    FoundAgain env l ∧ FoundAgain env r ∧
      (clean ((ConditionType.combined l o r).display env) =
          (ConditionType.combined l o r).display env ∧
        findOperator env ((ConditionType.combined l o r).display env) =
          some (o, utf8Len (l.display env)) ∨
      ∀ pos, findOperator env (clean ((ConditionType.combined l o r).display env)) ≠ some (o, pos))
  | _ => True

/-- A combined condition whose operator is not found in what is printed is not read back. -/
theorem not_readBack_combined {l r : ConditionType F} {o : LogicalOperator}
    (hlost : ∀ pos, findOperator env (clean ((ConditionType.combined l o r).display env)) ≠
      some (o, pos)) : ¬ ReadBack env (.combined l o r) := by
  rintro ⟨condition, hparse, hbeq⟩
  obtain ⟨l', r', rfl, -, -⟩ := beq_combined_iff.mp hbeq
  cases parse_eq_ok_iff.mp hparse with
  | combined h =>
    obtain ⟨operator, pos, _, _, _, _, hfound, _, _, _, _, heq⟩ :=
      exists_of_parseCombinedCondition h
    cases heq
    exact hlost pos hfound

theorem legible_of_verbatim (hfound : findOperator env (clean s) = none)
    (htime : (parseTimeDate env (clean s)).IsErr)
    (hproperty : (parseVehicleProperty env (clean s)).IsErr)
    (husage : ∀ operator count, parseVehicleUsage (clean s) ≠ .ok (.occupants operator count))
    (hparse : parse env s = .ok condition) (hread : ReadBack env condition) :
    Legible env s (condition.display env) := by
  obtain ⟨condition', hparse', hverbatim⟩ := exists_verbatim hfound htime hproperty husage
  obtain rfl := ok.inj (hparse.symm.trans hparse')
  have hchosen := parse_eq_ok_iff.mp hparse
  have hclean := (readBack_verbatim_iff hchosen hverbatim).mp hread
  rw [display_of_chosen hchosen hverbatim]
  exact .kept hfound htime hproperty husage hclean

/-- The names of seasons and of states of the road are kept. -/
theorem legible_of_name (hname : (parseSeason (clean s)).IsOk ∨ (parseRoadCondition (clean s)).IsOk)
    (hfound : findOperator env (clean s) = none) (htime : (parseTimeDate env (clean s)).IsErr)
    (hparse : parse env s = .ok condition) (hread : ReadBack env condition) :
    Legible env s (condition.display env) := by
  obtain ⟨hnone, hload⟩ := name_facts hname
  refine legible_of_verbatim hfound htime ?_ ?_ hparse hread
  · rw [parseVehicleProperty, hnone]
    exact ⟨_, rfl⟩
  · intro operator count
    rw [hload]
    simp

/-- What is read back was printed legibly, where no operator is found. -/
theorem legible_of_single (hfound : findOperator env (clean s) = none)
    (hparse : parse env s = .ok condition) (hread : ReadBack env condition) :
    Legible env s (condition.display env) := by
  have hrejected : (parseVehicleUsage (clean s)).IsErr → ∀ operator count,
      parseVehicleUsage (clean s) ≠ .ok (.occupants operator count) := by
    intro husage operator count h
    exact husage.not_isOk ⟨_, h⟩
  cases parse_eq_ok_iff.mp hparse with
  | combined h =>
    exact absurd ⟨_, h⟩ (isErr_parseCombinedCondition hfound).not_isOk
  | timeDate _ h =>
    have hplain := (readBack_timeDate_iff (timeOf_of_parseTimeDate h) hfound).mp hread
    exact .timeDate hfound h hplain
  | season _ htime h => exact legible_of_name (.inl ⟨_, h⟩) hfound htime hparse hread
  | roadCondition _ htime _ h => exact legible_of_name (.inr ⟨_, h⟩) hfound htime hparse hread
  | vehicleProperty _ htime _ _ h =>
    have hproperty := propertyOf_of_parseVehicleProperty h
    exact .vehicleProperty hfound htime h ((readBack_vehicleProperty_iff hproperty hfound).mp hread)
  | @vehicleUsage usage hbefore h =>
    cases usage with
    | occupants operator count => exact .occupants hfound hbefore.timeDate hbefore.vehicleProperty h
    | hazmat | load =>
      refine legible_of_verbatim hfound hbefore.timeDate hbefore.vehicleProperty ?_ hparse hread
      intro operator count
      rw [h]
      simp
  | userGroup hbefore husage | purpose hbefore husage | stayDuration hbefore husage
  | raw hbefore husage =>
    exact legible_of_verbatim hfound hbefore.timeDate hbefore.vehicleProperty (hrejected husage)
      hparse hread

theorem findOperator_of_isErr (h : (parseCombinedCondition env (parse env) c).IsErr) :
    findOperator env c = none := by
  cases hfound : findOperator env c with
  | none => rfl
  | some found => exact absurd h (not_isErr_parseCombinedCondition hfound)

/-- **What is read back was printed legibly**, where operators are found again.  By induction on
the condition. -/
theorem legible_of_readBack (condition : ConditionType F) (s : List Char)
    (hparse : parse env s = .ok condition) (hagain : FoundAgain env condition)
    (hread : ReadBack env condition) : Legible env s (condition.display env) := by
  induction condition generalizing s with
  | combined l o r ihl ihr =>
    cases parse_eq_ok_iff.mp hparse with
    | combined h =>
      obtain ⟨operator, pos, left, right, l', r', hfound, hleft, hright, hl, hr, heq⟩ :=
        exists_of_parseCombinedCondition h
      cases heq
      obtain ⟨hagainl, hagainr, ⟨hclean, hplace⟩ | hlost⟩ := hagain
      · -- The printed text is cut where it was joined: each half by itself.
        obtain ⟨hreadl, hreadr⟩ := (readBack_combined_iff hclean hplace).mp hread
        have hlegiblel := ihl (trim left) hl hagainl hreadl
        have hlegibler := ihr (trim right) hr hagainr hreadr
        rw [display_combined_eq] at hclean hplace ⊢
        exact .combined hfound hleft hright hlegiblel hlegibler hclean hplace
      · exact absurd hread (not_readBack_combined hlost)
  | _ =>
    -- Everything else is chosen only after the grammar of combined conditions has failed.
    have hchosen := parse_eq_ok_iff.mp hparse
    refine legible_of_single (findOperator_of_isErr ?_) hparse hread
    cases hchosen
    first | assumption | exact RejectedBefore.combined ‹_›

/-! ### Which texts survive -/

/-- **Which texts survive being parsed, printed and parsed again.**  A text that is printed legibly
survives.  Where the operators of its condition are found again, no other text does. -/
theorem survives_roundTrips (env : Runtime F) (s : List Char) :
    (Survives env s → RoundTrips env s) ∧
      ((∀ condition, parse env s = .ok condition → FoundAgain env condition) →
        RoundTrips env s → Survives env s) := by
  constructor
  · rintro (hpanic | ⟨t, hlegible⟩) condition hparse
    · refine absurd (parse_ne_panicked_iff.mp ?_) hpanic
      rw [hparse]
      simp
    · obtain ⟨condition', hparse', -, hread⟩ := hlegible.readBack
      rw [hparse] at hparse'
      rwa [ok.inj hparse']
  · intro hagain htrips
    cases hparse : parse env s with
    | err e => exact absurd hparse (parse_ne_err s e)
    | panicked => exact .inl fun hsafe => hsafe.ne_panicked hparse
    | ok condition =>
      exact .inr ⟨_, legible_of_readBack condition s hparse (hagain condition hparse)
        (htrips condition hparse)⟩

/-- Hours on working days are printed without a blank, and taken for a load. -/
theorem working_days_not_roundTrips :
    ¬ RoundTrips Runtime.whole "Mo-Fr 09:00-17:00".toList := by
  intro h
  have hparse : parse Runtime.whole "Mo-Fr 09:00-17:00".toList =
      .ok (.timeDate ⟨⟨[⟨some (.range .monday .friday), [⟨⟨9, 0⟩, ⟨17, 0⟩⟩], false⟩]⟩, none⟩) := by
    decide
  have hload : parse Runtime.whole "Mo-Fr09:00-17:00".toList =
      .ok (.vehicleUsage (.load "Mo-Fr09:00-17:00".toList)) := by
    decide
  obtain ⟨condition, hread, hbeq⟩ := h _ hparse
  have heq := hload.symm.trans hread
  cases heq
  cases hbeq

end Condition

end Routers
