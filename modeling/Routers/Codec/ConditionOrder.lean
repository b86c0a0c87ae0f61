import Routers.Codec.Condition

/-!
# The order of the grammars

The grammars of conditions overlap, and the first that accepts a text decides what it is taken
for.  The grammar of loads, which any text satisfies, comes before those of user groups, of
purposes and of the duration of a stay.

## Main definitions

* `Condition.Chosen` — what is chosen for a text, and which grammars have rejected it before.
* `Condition.EarlierAccepts`, `Condition.LaterAccepts` — the grammars before and after loads.
* `Condition.Reached` — each grammar gets the texts that are its own.

## Main results

* `Condition.parse_eq_ok_iff` — what is parsed is what is chosen.
* `Condition.reached_iff` — **which texts the grammars after loads get.**

## References

`src/libs/routers_codec/src/osm/parsers/primitives/condition.rs`.
-/

namespace Routers

open Text

namespace Outcome

variable {α : Type} {x y : Outcome α} {a : α}

/-- A grammar rejects a text. -/
def IsErr (x : Outcome α) : Prop := ∃ e, x = err e

/-- A grammar accepts a text. -/
def IsOk (x : Outcome α) : Prop := ∃ a, x = ok a

theorem orElse_eq_ok_iff : x.orElse y = ok a ↔ x = ok a ∨ x.IsErr ∧ y = ok a := by
  cases x <;> simp [IsErr]

@[simp] theorem isErr_map_iff {β : Type} {f : α → β} : (f <$> x).IsErr ↔ x.IsErr := by
  cases x <;> simp [IsErr]

theorem IsErr.not_isOk (h : x.IsErr) : ¬ x.IsOk := by
  rintro ⟨a, ha⟩
  obtain ⟨e, he⟩ := h
  rw [ha] at he
  cases he

theorem IsErr.ne_panicked (h : x.IsErr) : x ≠ panicked := by
  obtain ⟨e, rfl⟩ := h
  simp

end Outcome

open Outcome

namespace Condition

variable {F : Type} {env : Runtime F} {s c : List Char}

/-! ### What is chosen -/

variable (env c)

/-- The grammars of whole conditions before that of vehicle usage have rejected a text. -/
structure RejectedBefore : Prop where
  combined : (parseCombinedCondition env (parse env) c).IsErr
  timeDate : (parseTimeDate env c).IsErr
  season : (parseSeason c).IsErr
  roadCondition : (parseRoadCondition c).IsErr
  vehicleProperty : (parseVehicleProperty env c).IsErr

/-- What is chosen for a cleaned text, and which grammars have rejected it before. -/
inductive Chosen : ConditionType F → Prop
  | combined {l r : ConditionType F} {o : LogicalOperator}
      (h : parseCombinedCondition env (parse env) c = .ok (.combined l o r)) :
      Chosen (.combined l o r)
  | timeDate {td : TimeDateCondition} (hcombined : (parseCombinedCondition env (parse env) c).IsErr)
      (h : parseTimeDate env c = .ok td) : Chosen (.timeDate td)
  | season {season : SeasonCondition}
      (hcombined : (parseCombinedCondition env (parse env) c).IsErr)
      (htime : (parseTimeDate env c).IsErr) (h : parseSeason c = .ok season) :
      Chosen (.season season)
  | roadCondition {road : RoadCondition}
      (hcombined : (parseCombinedCondition env (parse env) c).IsErr)
      (htime : (parseTimeDate env c).IsErr) (hseason : (parseSeason c).IsErr)
      (h : parseRoadCondition c = .ok road) : Chosen (.roadCondition road)
  | vehicleProperty {vp : VehiclePropertyCondition F}
      (hcombined : (parseCombinedCondition env (parse env) c).IsErr)
      (htime : (parseTimeDate env c).IsErr) (hseason : (parseSeason c).IsErr)
      (hroad : (parseRoadCondition c).IsErr) (h : parseVehicleProperty env c = .ok vp) :
      Chosen (.vehicleProperty vp)
  | vehicleUsage {usage : VehicleUsageCondition} (hbefore : RejectedBefore env c)
      (h : parseVehicleUsage c = .ok usage) : Chosen (.vehicleUsage usage)
  | userGroup {group : UserGroupCondition} (hbefore : RejectedBefore env c)
      (husage : (parseVehicleUsage c).IsErr) (h : parseUserGroup c = .ok group) :
      Chosen (.userGroup group)
  | purpose {p : PurposeCondition} (hbefore : RejectedBefore env c)
      (husage : (parseVehicleUsage c).IsErr) (hgroup : (parseUserGroup c).IsErr)
      (h : parsePurpose c = .ok p) : Chosen (.purpose p)
  | stayDuration {sd : StayDurationCondition} (hbefore : RejectedBefore env c)
      (husage : (parseVehicleUsage c).IsErr) (hgroup : (parseUserGroup c).IsErr)
      (hpurpose : (parsePurpose c).IsErr) (h : parseStayDuration env c = .ok sd) :
      Chosen (.stayDuration sd)
  | raw (hbefore : RejectedBefore env c) (husage : (parseVehicleUsage c).IsErr)
      (hgroup : (parseUserGroup c).IsErr) (hpurpose : (parsePurpose c).IsErr)
      (hstay : (parseStayDuration env c).IsErr) : Chosen (.raw c)

variable {env c}

/-- The halves of a combined condition, combined. -/
theorem exists_of_parseCombinedCondition {parse : List Char → Outcome (ConditionType F)}
    {condition : ConditionType F} (h : parseCombinedCondition env parse c = .ok condition) :
    ∃ operator pos left right l r, findOperator env c = some (operator, pos) ∧
      sliceTo? c pos = some left ∧ sliceFrom? c (pos + utf8Len (token operator)) = some right ∧
      parse (trim left) = .ok l ∧ parse (trim right) = .ok r ∧
      condition = .combined l operator r := by
  unfold parseCombinedCondition at h
  split at h
  · next operator pos hfound =>
    simp only [bind_eq_ok_iff, orPanic_eq_ok_iff] at h
    obtain ⟨left, hleft, right, hright, l, hl, r, hr, h⟩ := h
    exact ⟨operator, pos, left, right, l, r, hfound, hleft, hright, hl, hr, (ok.inj h).symm⟩
  · cases h

/-- **What is parsed is what is chosen.** -/
theorem parse_eq_ok_iff {condition : ConditionType F} :
    parse env s = .ok condition ↔ Chosen env (clean s) condition := by
  rw [parse_eq, dispatch]
  simp only [orElse_eq_ok_iff, map_eq_ok_iff, isErr_map_iff]
  constructor
  · rintro (h | ⟨h1, ⟨td, h, rfl⟩ | ⟨h2, ⟨season, h, rfl⟩ | ⟨h3, ⟨road, h, rfl⟩ |
      ⟨h4, ⟨vp, h, rfl⟩ | ⟨h5, ⟨usage, h, rfl⟩ | ⟨h6, ⟨group, h, rfl⟩ | ⟨h7, ⟨p, h, rfl⟩ |
      ⟨h8, ⟨sd, h, rfl⟩ | ⟨h9, h⟩⟩⟩⟩⟩⟩⟩⟩⟩)
    · obtain ⟨operator, -, -, -, l, r, -, -, -, -, -, rfl⟩ := exists_of_parseCombinedCondition h
      exact .combined h
    · exact .timeDate h1 h
    · exact .season h1 h2 h
    · exact .roadCondition h1 h2 h3 h
    · exact .vehicleProperty h1 h2 h3 h4 h
    · exact .vehicleUsage ⟨h1, h2, h3, h4, h5⟩ h
    · exact .userGroup ⟨h1, h2, h3, h4, h5⟩ h6 h
    · exact .purpose ⟨h1, h2, h3, h4, h5⟩ h6 h7 h
    · exact .stayDuration ⟨h1, h2, h3, h4, h5⟩ h6 h7 h8 h
    · cases h
      exact .raw ⟨h1, h2, h3, h4, h5⟩ h6 h7 h8 h9
  · intro h
    cases h with
    | combined h => exact .inl h
    | timeDate h1 h => exact .inr ⟨h1, .inl ⟨_, h, rfl⟩⟩
    | season h1 h2 h => exact .inr ⟨h1, .inr ⟨h2, .inl ⟨_, h, rfl⟩⟩⟩
    | roadCondition h1 h2 h3 h => exact .inr ⟨h1, .inr ⟨h2, .inr ⟨h3, .inl ⟨_, h, rfl⟩⟩⟩⟩
    | vehicleProperty h1 h2 h3 h4 h =>
      exact .inr ⟨h1, .inr ⟨h2, .inr ⟨h3, .inr ⟨h4, .inl ⟨_, h, rfl⟩⟩⟩⟩⟩
    | vehicleUsage hb h =>
      exact .inr ⟨hb.1, .inr ⟨hb.2, .inr ⟨hb.3, .inr ⟨hb.4, .inr ⟨hb.5, .inl ⟨_, h, rfl⟩⟩⟩⟩⟩⟩
    | userGroup hb h6 h =>
      exact .inr ⟨hb.1, .inr ⟨hb.2, .inr ⟨hb.3, .inr ⟨hb.4, .inr ⟨hb.5, .inr ⟨h6,
        .inl ⟨_, h, rfl⟩⟩⟩⟩⟩⟩⟩
    | purpose hb h6 h7 h =>
      exact .inr ⟨hb.1, .inr ⟨hb.2, .inr ⟨hb.3, .inr ⟨hb.4, .inr ⟨hb.5, .inr ⟨h6, .inr ⟨h7,
        .inl ⟨_, h, rfl⟩⟩⟩⟩⟩⟩⟩⟩
    | stayDuration hb h6 h7 h8 h =>
      exact .inr ⟨hb.1, .inr ⟨hb.2, .inr ⟨hb.3, .inr ⟨hb.4, .inr ⟨hb.5, .inr ⟨h6, .inr ⟨h7,
        .inr ⟨h8, .inl ⟨_, h, rfl⟩⟩⟩⟩⟩⟩⟩⟩⟩
    | raw hb h6 h7 h8 h9 =>
      exact .inr ⟨hb.1, .inr ⟨hb.2, .inr ⟨hb.3, .inr ⟨hb.4, .inr ⟨hb.5, .inr ⟨h6, .inr ⟨h7,
        .inr ⟨h8, .inr ⟨h9, rfl⟩⟩⟩⟩⟩⟩⟩⟩⟩

/-! ### Which grammars are reached -/

variable (env s c)

/-- A combined, time, season, road or vehicle property condition, hazmat, or occupants. -/
def EarlierAccepts : Prop :=
  (parseCombinedCondition env (parse env) c).IsOk ∨ (parseTimeDate env c).IsOk ∨
    (parseSeason c).IsOk ∨ (parseRoadCondition c).IsOk ∨ (parseVehicleProperty env c).IsOk ∨
      parseVehicleUsage c = .ok .hazmat ∨
        ∃ operator count, parseVehicleUsage c = .ok (.occupants operator count)

/-- A user group, a purpose, or the duration of a stay. -/
def LaterAccepts : Prop :=
  (parseUserGroup c).IsOk ∨ (parsePurpose c).IsOk ∨ (parseStayDuration env c).IsOk

/-- **Each grammar gets the texts that are its own**: a text that no earlier grammar accepts is
parsed as the first of the later ones does that accept it, and only what no grammar accepts is
taken for a load or kept raw. -/
structure Reached : Prop where
  userGroup : ¬ EarlierAccepts env (clean s) → ∀ group, parseUserGroup (clean s) = .ok group →
    parse env s = .ok (.userGroup group)
  purpose : ¬ EarlierAccepts env (clean s) → (parseUserGroup (clean s)).IsErr →
    ∀ p, parsePurpose (clean s) = .ok p → parse env s = .ok (.purpose p)
  stayDuration : ¬ EarlierAccepts env (clean s) → (parseUserGroup (clean s)).IsErr →
    (parsePurpose (clean s)).IsErr → ∀ sd, parseStayDuration env (clean s) = .ok sd →
      parse env s = .ok (.stayDuration sd)
  load : ∀ load, parse env s = .ok (.vehicleUsage (.load load)) →
    ¬ EarlierAccepts env (clean s) ∧ ¬ LaterAccepts env (clean s)
  raw : ∀ raw, parse env s = .ok (.raw raw) →
    ¬ EarlierAccepts env (clean s) ∧ ¬ LaterAccepts env (clean s)

variable {env s c}

theorem RejectedBefore.not_earlierAccepts (h : RejectedBefore env c)
    (hhazmat : parseVehicleUsage c ≠ .ok .hazmat)
    (hoccupants : ∀ operator count, parseVehicleUsage c ≠ .ok (.occupants operator count)) :
    ¬ EarlierAccepts env c := by
  rintro (hc | hc | hc | hc | hc | hc | ⟨operator, count, hc⟩)
  · exact h.combined.not_isOk hc
  · exact h.timeDate.not_isOk hc
  · exact h.season.not_isOk hc
  · exact h.roadCondition.not_isOk hc
  · exact h.vehicleProperty.not_isOk hc
  · exact hhazmat hc
  · exact hoccupants operator count hc

/-- What is taken for a load is accepted by no earlier grammar. -/
theorem not_earlierAccepts_of_load {load : List Char}
    (h : parse env s = .ok (.vehicleUsage (.load load))) : ¬ EarlierAccepts env (clean s) := by
  cases parse_eq_ok_iff.mp h with
  | vehicleUsage hbefore h =>
    refine hbefore.not_earlierAccepts ?_ fun _ _ => ?_ <;>
    · rw [h]
      simp

/-- What is kept raw is accepted by no grammar at all. -/
theorem not_accepts_of_raw {raw : List Char} (h : parse env s = .ok (.raw raw)) :
    ¬ EarlierAccepts env (clean s) ∧ ¬ LaterAccepts env (clean s) := by
  cases parse_eq_ok_iff.mp h with
  | raw hbefore husage hgroup hpurpose hstay =>
    constructor
    · exact hbefore.not_earlierAccepts (fun h => husage.not_isOk ⟨_, h⟩)
        fun _ _ h => husage.not_isOk ⟨_, h⟩
    · rintro (h | h | h)
      · exact hgroup.not_isOk h
      · exact hpurpose.not_isOk h
      · exact hstay.not_isOk h

/-- The grammar of vehicle usage rejects only texts about occupants. -/
theorem isPrefix_of_isErr (h : (parseVehicleUsage c).IsErr) : "occupants".toList <+: c := by
  obtain ⟨e, h⟩ := h
  unfold parseVehicleUsage at h
  split_ifs at h
  split at h
  · next rest hrest =>
    obtain ⟨pre, rfl, hpre⟩ := List.dropPrefix?_eq_some_iff.mp hrest
    exact ⟨rest, by rw [eq_of_beq hpre]⟩
  · cases h

/-- **The grammar of vehicle usage rejects no text that a later one accepts.** -/
theorem not_isErr_parseVehicleUsage (h : LaterAccepts env c) : ¬ (parseVehicleUsage c).IsErr := by
  intro herr
  obtain ⟨rest, rfl⟩ := isPrefix_of_isErr herr
  obtain ⟨group, hgroup⟩ | ⟨p, hp⟩ | ⟨sd, hsd⟩ := h
  · have hname := name_of_fromName (orErr_eq_ok_iff.mp hgroup)
    cases group <;> simp [UserGroupCondition.name] at hname
  · have hname := name_of_fromName (orErr_eq_ok_iff.mp hp)
    cases p <;> simp [PurposeCondition.name] at hname
  · unfold parseStayDuration at hsd
    split_ifs at hsd with hstay
    obtain ⟨_, hstay⟩ := hstay
    simp at hstay

theorem isErr_orErr_of_not_isOk {α : Type} {e : ParseError} {o : Option α}
    (h : ¬ (orErr e o).IsOk) : (orErr e o).IsErr := by
  cases o with
  | none => exact ⟨e, rfl⟩
  | some a => exact absurd ⟨a, rfl⟩ h

/-- A text that a later grammar accepts never gets to it. -/
theorem Reached.earlierAccepts (h : Reached env s) (hlater : LaterAccepts env (clean s)) :
    EarlierAccepts env (clean s) := by
  by_contra hearlier
  have husage := not_isErr_parseVehicleUsage hlater
  by_cases hgroup : (parseUserGroup (clean s)).IsOk
  · obtain ⟨group, hgroup⟩ := hgroup
    cases parse_eq_ok_iff.mp (h.userGroup hearlier group hgroup) with
    | userGroup _ herr _ => exact husage herr
  · have hgrouperr := isErr_orErr_of_not_isOk hgroup
    by_cases hpurpose : (parsePurpose (clean s)).IsOk
    · obtain ⟨p, hp⟩ := hpurpose
      cases parse_eq_ok_iff.mp (h.purpose hearlier hgrouperr p hp) with
      | purpose _ herr _ _ => exact husage herr
    · obtain ⟨sd, hsd⟩ := (hlater.resolve_left hgroup).resolve_left hpurpose
      have hpurposeerr := isErr_orErr_of_not_isOk hpurpose
      cases parse_eq_ok_iff.mp (h.stayDuration hearlier hgrouperr hpurposeerr sd hsd) with
      | stayDuration _ herr _ _ _ => exact husage herr

/-- **Which texts the grammars after loads get**: none.  Each grammar gets its own texts just where
an earlier grammar accepts the text, or no later one does. -/
theorem reached_iff : Reached env s ↔
    EarlierAccepts env (clean s) ∨ ¬ LaterAccepts env (clean s) := by
  constructor
  · intro h
    by_cases hlater : LaterAccepts env (clean s)
    · exact .inl (h.earlierAccepts hlater)
    · exact .inr hlater
  · intro h
    have hlater : ¬ EarlierAccepts env (clean s) → ¬ LaterAccepts env (clean s) := h.resolve_left
    constructor
    · exact fun hearlier group hgroup => absurd (.inl ⟨group, hgroup⟩) (hlater hearlier)
    · exact fun hearlier _ p hp => absurd (.inr (.inl ⟨p, hp⟩)) (hlater hearlier)
    · exact fun hearlier _ _ sd hsd => absurd (.inr (.inr ⟨sd, hsd⟩)) (hlater hearlier)
    · intro load hload
      have hearlier := not_earlierAccepts_of_load hload
      exact ⟨hearlier, hlater hearlier⟩
    · exact fun raw hraw => not_accepts_of_raw hraw

/-- A doctor is taken for a load. -/
theorem doctor_not_reached : ¬ Reached Runtime.whole "doctor".toList := by
  intro h
  have hload : parse Runtime.whole "doctor".toList =
      .ok (.vehicleUsage (.load "doctor".toList)) := by
    decide
  obtain ⟨-, hlater⟩ := h.load _ hload
  exact hlater (.inl ⟨.doctor, by decide⟩)

end Condition

end Routers
