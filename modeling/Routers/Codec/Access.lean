import Routers.Codec.Graph
import Routers.Codec.Transport
import Routers.Library.MaxByKey
import Mathlib.Data.List.Sort

/-!
# Access to roads

The tags of a way restrict the modes of transport that may use it, in one direction or both.
Of the restrictions that concern a mode and a direction, one of the most specific mode decides,
the last of them in the list.  The tags come in the order of a hash map; the list that is kept
of them is sorted by the access they give.

## Main definitions

* `AccessTag`, `Restriction`, `AccessTag.fromKeyValue` — the tags and how they are read.
* `sortedByAccess` — the list that is kept.
* `OsmEdgeMetadata.accessible` — the decision.
* `Gives` — what the tags of a way say, by their texts.

## Main results

* `accessible_perm_iff` — when the order of a list of tags is of no account.
* `accessible_sortedByAccess_perm` — **the order of the hash map is of no account.**
* `accessible_parseAccessTags_iff` — **who may use a way, by the texts of its tags.**

## References

`src/libs/routers_codec/src/osm/parsers/access_tag/access.rs`,
`src/libs/routers_codec/src/osm/parsers/access_tag/mod.rs`,
`src/libs/routers_codec/src/osm/parsers/speed_limit/restriction.rs`,
`src/libs/routers_codec/src/osm/parsers/primitives/direction.rs` and
`src/libs/routers_codec/src/osm/mod.rs`.
-/

namespace Routers

/-! ### Tags -/

/-- Who may use a way, by what it is for. -/
inductive AccessValue
  | yes | no | private_ | permissive | designated | discouraged | customers | destination
  | agricultural | forestry | delivery | military | useSidepath | dismount | permit | unknown
  | variable_
  deriving DecidableEq, Repr, Inhabited

namespace AccessValue

/-- The values, in their order. -/
def values : List AccessValue :=
  [yes, no, private_, permissive, designated, discouraged, customers, destination, agricultural,
    forestry, delivery, military, useSidepath, dismount, permit, unknown, variable_]

/-- The value as a tag writes it. -/
def name : AccessValue → String
  | yes => "yes"
  | no => "no"
  | private_ => "private"
  | permissive => "permissive"
  | designated => "designated"
  | discouraged => "discouraged"
  | customers => "customers"
  | destination => "destination"
  | agricultural => "agricultural"
  | forestry => "forestry"
  | delivery => "delivery"
  | military => "military"
  | useSidepath => "use_sidepath"
  | dismount => "dismount"
  | permit => "permit"
  | unknown => "unknown"
  | variable_ => "variable"

/-- The access that a value of a tag names. -/
def tryFrom (s : List Char) : Option AccessValue := values.find? fun value => value.name.toList = s

/-- Where a value stands in the order. -/
def rank (value : AccessValue) : ℕ := values.idxOf value

theorem rank_injective {a b : AccessValue} (h : a.rank = b.rank) : a = b :=
  (List.idxOf_inj (by cases a <;> decide)).mp h

end AccessValue

/-- Along which side or in which direction of a way a restriction holds. -/
inductive Directionality
  | bothWays | forward | backward | both | left | right
  deriving DecidableEq, Repr, Inhabited

namespace Directionality

/-- The directionality that a section of a key names. -/
def fromStr (s : List Char) : Option Directionality :=
  if s = "both_ways".toList then some bothWays
  else if s = "forward".toList then some forward
  else if s = "backward".toList then some backward
  else if s = "both".toList then some both
  else if s = "left".toList then some left
  else if s = "right".toList then some right
  else none

end Directionality

/-- A restriction that may leave open for whom it holds, and where. -/
structure RestrictionOptionals where
  transportMode : Option TransportMode
  directionality : Option Directionality
  deriving DecidableEq, Repr, Inhabited

/-- For whom a restriction holds, and where. -/
structure Restriction where
  transportMode : TransportMode
  directionality : Directionality
  deriving DecidableEq, Repr, Inhabited

namespace Restriction

/-- The first mode and the first directionality among the sections of a label. -/
def parseBuilder (label : List Char) : RestrictionOptionals :=
  (label.splitOn ':').foldl
    (fun acc part =>
      { transportMode := acc.transportMode.or (TransportMode.fromStr part)
        directionality := acc.directionality.or (Directionality.fromStr part) })
    ⟨none, none⟩

/-- The restriction of a label, as much of it as is named. -/
def parse (label : List Char) : RestrictionOptionals := parseBuilder label

/-- The restriction of a label that names a mode; it holds both ways unless it says otherwise. -/
def parseRequireTransportMode (label : List Char) : Option Restriction := do
  let builder := parseBuilder label
  return {
    transportMode := ← builder.transportMode
    directionality := builder.directionality.getD .bothWays }

end Restriction

/-- A tag of a way that says who may use it. -/
structure AccessTag where
  restriction : Restriction
  access : AccessValue
  deriving DecidableEq, Repr, Inhabited

namespace AccessTag

/-- The tag of a key and a value; neither may be unknown. -/
def fromKeyValue (key value : List Char) : Option AccessTag := do
  let access ← AccessValue.tryFrom value
  let restriction ← Restriction.parseRequireTransportMode key
  return { restriction := restriction, access := access }

/-- The tag of an entry of the map, none where it does not say who may use the way. -/
def fromTag (tag : String × String) : Option AccessTag := fromKeyValue tag.1.toList tag.2.toList

end AccessTag

/-- The access tags of a way, in the order in which its tags are gone through. -/
def parseAccessTags (tags : List (String × String)) : List AccessTag :=
  tags.filterMap AccessTag.fromTag

/-- The list that is kept of the access tags, the sort being stable. -/
def sortedByAccess (tags : List AccessTag) : List AccessTag :=
  tags.insertionSort fun a b => a.access.rank ≤ b.access.rank

/-! ### The decision -/

/-- What of the circumstances of a trip the decision depends on. -/
structure OsmTripConfiguration where
  transportMode : TransportMode
  allowPrivateRoads : Bool
  deriving DecidableEq, Repr, Inhabited

namespace AccessTag

variable (tag : AccessTag) (conditions : OsmTripConfiguration) (direction : Direction)

/-- The tag holds in the direction; one for a side of the way holds in neither. -/
def matchesDirection : Bool :=
  match tag.restriction.directionality with
  | .forward => direction = .outgoing
  | .backward => direction = .incoming
  | .bothWays => true
  | _ => false

/-- The tag concerns the mode and the direction. -/
def applies : Bool :=
  conditions.transportMode.isRestrictedBy tag.restriction.transportMode &&
    tag.matchesDirection direction

/-- How specific the mode of the tag is. -/
def specificity : ℕ := tag.restriction.transportMode.specificityLevel

/-- The tag lets the trip pass. -/
def grants : Bool :=
  match tag.access with
  | .yes => true
  | .private_ => conditions.allowPrivateRoads
  | _ => false

end AccessTag

open MaxByKey

variable {L : Type}

/-- A way may be used if the last of the most specific tags that apply lets the trip pass, or if none
applies. -/
def OsmEdgeMetadata.accessible (metadata : OsmEdgeMetadata L AccessTag)
    (conditions : OsmTripConfiguration) (direction : Direction) : Bool :=
  (((maxByKey AccessTag.specificity
    ((metadata.access.filter fun tag =>
        conditions.transportMode.isRestrictedBy tag.restriction.transportMode).filter
      fun tag => tag.matchesDirection direction)).map
    fun tag => tag.grants conditions)).getD true

/-! ### The order of the tags -/

variable {conditions : OsmTripConfiguration} {direction : Direction}
  {metadata : OsmEdgeMetadata L AccessTag} {tags tags' : List AccessTag} {tag tag' : AccessTag}

theorem accessible_eq : metadata.accessible conditions direction
    = ((maxByKey AccessTag.specificity
        (metadata.access.filter fun tag => tag.applies conditions direction)).map
      fun tag => tag.grants conditions).getD true := by
  unfold OsmEdgeMetadata.accessible AccessTag.applies
  rw [List.filter_filter]
  simp only [Bool.and_comm]

/-- The tag concerns the mode and the direction, and no other one that does is more specific. -/
def Decisive (tags : List AccessTag) (conditions : OsmTripConfiguration) (direction : Direction)
    (tag : AccessTag) : Prop :=
  (tag ∈ tags ∧ tag.applies conditions direction) ∧
    ∀ other ∈ tags, other.applies conditions direction → other.specificity ≤ tag.specificity

/-- The tags that concern the mode and the direction. -/
def applying (conditions : OsmTripConfiguration) (direction : Direction) (tags : List AccessTag) :
    List AccessTag :=
  tags.filter fun tag => tag.applies conditions direction

theorem accessible_eq_applying : metadata.accessible conditions direction
    = ((maxByKey AccessTag.specificity (applying conditions direction metadata.access)).map
      fun tag => tag.grants conditions).getD true := accessible_eq

theorem decisive_iff : Decisive tags conditions direction tag ↔
    tag ∈ applying conditions direction tags ∧
      ∀ other ∈ applying conditions direction tags, other.specificity ≤ tag.specificity := by
  simp [Decisive, applying]

theorem decisive_of_maxByKey
    (h : maxByKey AccessTag.specificity (applying conditions direction tags) = some tag) :
    Decisive tags conditions direction tag :=
  decisive_iff.mpr ⟨mem_of_maxByKey h, fun _ hother => le_of_maxByKey h hother⟩

theorem Decisive.perm (h : Decisive tags conditions direction tag) (hperm : tags.Perm tags') :
    Decisive tags' conditions direction tag :=
  ⟨⟨hperm.mem_iff.mp h.1.1, h.1.2⟩, fun other hother => h.2 other (hperm.mem_iff.mpr hother)⟩

theorem Decisive.specificity_eq (h : Decisive tags conditions direction tag)
    (h' : Decisive tags conditions direction tag') : tag.specificity = tag'.specificity :=
  le_antisymm (h'.2 tag h.1.1 h.1.2) (h.2 tag' h'.1.1 h'.1.2)

/-- The decisive tags are all about one mode. -/
theorem Decisive.transportMode_eq (h : Decisive tags conditions direction tag)
    (h' : Decisive tags conditions direction tag') :
    tag.restriction.transportMode = tag'.restriction.transportMode := by
  have happlies := h.1.2
  have happlies' := h'.1.2
  simp only [AccessTag.applies, Bool.and_eq_true] at happlies happlies'
  exact TransportMode.eq_of_specificityLevel_eq happlies.1 happlies'.1 (h.specificity_eq h')

/-- Either no tag applies, or a decisive one gives the answer. -/
theorem accessible_cases (metadata : OsmEdgeMetadata L AccessTag)
    (conditions : OsmTripConfiguration) (direction : Direction) (tags : List AccessTag) :
    (applying conditions direction tags = [] ∧
        { metadata with access := tags }.accessible conditions direction = true) ∨
      ∃ tag, maxByKey AccessTag.specificity (applying conditions direction tags) = some tag ∧
        { metadata with access := tags }.accessible conditions direction
          = tag.grants conditions := by
  rw [accessible_eq_applying]
  simp only
  by_cases hnil : applying conditions direction tags = []
  · refine .inl ⟨hnil, ?_⟩
    rw [hnil, maxByKey_eq_none_iff.mpr rfl]
    rfl
  · obtain ⟨tag, htag⟩ : ∃ tag, maxByKey AccessTag.specificity _ = some tag := exists_maxByKey hnil
    refine .inr ⟨tag, htag, ?_⟩
    rw [htag]
    rfl

/-- A decisive tag that is put last gives the answer. -/
theorem accessible_concat (h : Decisive tags conditions direction tag) :
    { metadata with access := tags.erase tag ++ [tag] }.accessible conditions direction
      = tag.grants conditions := by
  have hmax : maxByKey AccessTag.specificity
      (applying conditions direction (tags.erase tag ++ [tag])) = some tag := by
    rw [applying, List.filter_append, List.filter_singleton, h.1.2, cond_true]
    refine maxByKey_concat fun other hother => ?_
    obtain ⟨hmem, happlies⟩ := List.mem_filter.mp hother
    exact h.2 other (List.mem_of_mem_erase hmem) happlies
  rw [accessible_eq_applying]
  simp only [hmax, Option.map_some, Option.getD_some]

/-- Permuted lists give the same answer if the tags that decide in them do. -/
theorem accessible_congr_perm (metadata : OsmEdgeMetadata L AccessTag) (hperm : tags.Perm tags')
    (h : ∀ tag tag',
      maxByKey AccessTag.specificity (applying conditions direction tags) = some tag →
      maxByKey AccessTag.specificity (applying conditions direction tags') = some tag' →
      tag'.grants conditions = tag.grants conditions) :
    { metadata with access := tags' }.accessible conditions direction
      = { metadata with access := tags }.accessible conditions direction := by
  have hfilter : (applying conditions direction tags).Perm
      (applying conditions direction tags') := hperm.filter _
  rcases accessible_cases metadata conditions direction tags with ⟨hnil, hacc⟩ | ⟨tag, htag, hacc⟩
  · rcases accessible_cases metadata conditions direction tags' with ⟨-, hacc'⟩ | ⟨tag', htag', -⟩
    · exact hacc'.trans hacc.symm
    · rw [hnil, List.nil_perm] at hfilter
      rw [hfilter, maxByKey_eq_none_iff.mpr rfl] at htag'
      cases htag'
  · rcases accessible_cases metadata conditions direction tags'
      with ⟨hnil', -⟩ | ⟨tag', htag', hacc'⟩
    · rw [hnil', List.perm_nil] at hfilter
      rw [hfilter, maxByKey_eq_none_iff.mpr rfl] at htag
      cases htag
    · rw [hacc, hacc']
      exact h tag tag' htag htag'

/-- The order of a list of tags is of no account exactly when all decisive tags give the same
answer. -/
theorem accessible_perm_iff : (∀ tags', tags.Perm tags' →
      { metadata with access := tags' }.accessible conditions direction
        = { metadata with access := tags }.accessible conditions direction) ↔
    ∀ tag tag', Decisive tags conditions direction tag → Decisive tags conditions direction tag' →
      tag.grants conditions = tag'.grants conditions := by
  constructor
  · intro h tag tag' hd hd'
    have hlast {tag : AccessTag} (hd : Decisive tags conditions direction tag) :
        tag.grants conditions = { metadata with access := tags }.accessible conditions direction :=
      (accessible_concat hd).symm.trans (h _ ((List.perm_cons_erase hd.1.1).trans
        (List.perm_append_singleton _ _).symm))
    exact (hlast hd).trans (hlast hd').symm
  · intro h tags' hperm
    refine accessible_congr_perm metadata hperm fun tag tag' htag htag' => ?_
    exact h tag' tag ((decisive_of_maxByKey htag').perm hperm.symm) (decisive_of_maxByKey htag)

/-- A bicycle way that is open both ways and closed forward. -/
def contraflow : List AccessTag :=
  [⟨⟨.bicycle, .bothWays⟩, .yes⟩, ⟨⟨.bicycle, .forward⟩, .no⟩]

/-- Unsorted, the last of the two tags decides. -/
theorem contraflow_accessible :
    ¬ ∀ tags', contraflow.Perm tags' →
      ({ laneCount := none, speedLimit := none, access := tags', roadClass := none } :
          OsmEdgeMetadata Unit AccessTag).accessible ⟨.bicycle, false⟩ .outgoing
        = ({ laneCount := none, speedLimit := none, access := contraflow, roadClass := none } :
          OsmEdgeMetadata Unit AccessTag).accessible ⟨.bicycle, false⟩ .outgoing := by
  intro h
  have hswap := h _ (List.Perm.swap _ _ _)
  revert hswap
  decide

/-- In a list sorted by access, the tag that decides gives the last access of the decisive
ones. -/
theorem rank_le_of_maxByKey (hsorted : tags.Pairwise fun a b => a.access.rank ≤ b.access.rank)
    (h : maxByKey AccessTag.specificity (applying conditions direction tags) = some tag)
    (h' : Decisive tags conditions direction tag') : tag'.access.rank ≤ tag.access.rank := by
  have hmem := (decisive_iff.mp h').1
  have hkey := h'.specificity_eq (decisive_of_maxByKey h)
  exact rel_of_maxByKey (r := fun a b => a.access.rank ≤ b.access.rank) (fun _ => le_rfl)
    (hsorted.filter _) h hmem hkey

theorem pairwise_sortedByAccess (tags : List AccessTag) :
    (sortedByAccess tags).Pairwise fun a b => a.access.rank ≤ b.access.rank :=
  List.pairwise_insertionSort (fun a b => a.access.rank ≤ b.access.rank) tags

theorem perm_sortedByAccess (tags : List AccessTag) : (sortedByAccess tags).Perm tags :=
  List.perm_insertionSort _ tags

/-- What a list that is kept answers: that the way is open, if no tag applies, and what the last
access of the decisive ones grants. -/
theorem accessible_sortedByAccess_iff (metadata : OsmEdgeMetadata L AccessTag)
    (collected : List AccessTag) (conditions : OsmTripConfiguration) (direction : Direction) :
    { metadata with access := sortedByAccess collected }.accessible conditions direction = true ↔
      (∀ tag ∈ collected, tag.applies conditions direction = false) ∨
        ∃ tag, Decisive collected conditions direction tag ∧
          (∀ other, Decisive collected conditions direction other →
            other.access.rank ≤ tag.access.rank) ∧ tag.grants conditions = true := by
  have hperm := perm_sortedByAccess collected
  obtain ⟨hnil, hacc⟩ | ⟨tag, htag, hacc⟩ :=
    accessible_cases metadata conditions direction (sortedByAccess collected)
  · refine iff_of_true hacc (Or.inl fun tag htag => ?_)
    have hnone := List.filter_eq_nil_iff.mp hnil tag (hperm.mem_iff.mpr htag)
    simpa using hnone
  have hdecisive := (decisive_of_maxByKey htag).perm hperm
  have hlast : ∀ other, Decisive collected conditions direction other →
      other.access.rank ≤ tag.access.rank := fun other hother =>
    rank_le_of_maxByKey (pairwise_sortedByAccess collected) htag (hother.perm hperm.symm)
  rw [hacc]
  constructor
  · exact fun hgrants => Or.inr ⟨tag, hdecisive, hlast, hgrants⟩
  · rintro (hnone | ⟨other, hother, hrank, hgrants⟩)
    · cases (hnone tag hdecisive.1.1).symm.trans hdecisive.1.2
    · have haccess : tag.access = other.access :=
        AccessValue.rank_injective (le_antisymm (hrank tag hdecisive) (hlast other hother))
      rwa [AccessTag.grants, haccess]

/-- **The order in which the tags are collected is of no account**: of every permutation of the
list collected, the list that is kept gives the same answer. -/
theorem accessible_sortedByAccess_perm (metadata : OsmEdgeMetadata L AccessTag)
    (collected collected' : List AccessTag) (hperm : collected.Perm collected')
    (conditions : OsmTripConfiguration) (direction : Direction) :
    { metadata with access := sortedByAccess collected' }.accessible conditions direction
      = { metadata with access := sortedByAccess collected }.accessible conditions direction := by
  have hdecisive : ∀ tag, Decisive collected' conditions direction tag ↔
      Decisive collected conditions direction tag := fun tag =>
    ⟨fun h => h.perm hperm.symm, fun h => h.perm hperm⟩
  rw [Bool.eq_iff_iff, accessible_sortedByAccess_iff, accessible_sortedByAccess_iff]
  simp only [hperm.mem_iff, hdecisive]

/-- The bicycle way, its tags collected in either order. -/
theorem contraflow_sortedByAccess :
    contraflow.Perm contraflow.reverse ∧
      ({ laneCount := none, speedLimit := none, access := sortedByAccess contraflow.reverse
         roadClass := none } : OsmEdgeMetadata Unit AccessTag).accessible ⟨.bicycle, false⟩ .outgoing
        = ({ laneCount := none, speedLimit := none, access := sortedByAccess contraflow
             roadClass := none } : OsmEdgeMetadata Unit AccessTag).accessible
              ⟨.bicycle, false⟩ .outgoing :=
  ⟨(List.reverse_perm _).symm,
    accessible_sortedByAccess_perm
      { laneCount := none, speedLimit := none, access := [], roadClass := none }
      contraflow contraflow.reverse (List.reverse_perm _).symm ⟨.bicycle, false⟩ .outgoing⟩

/-! ### The tags of a way -/

theorem AccessValue.tryFrom_eq_some_iff {s : List Char} {value : AccessValue} :
    AccessValue.tryFrom s = some value ↔ value.name.toList = s := by
  constructor
  · intro h
    simpa using List.find?_some h
  · rintro rfl
    cases value <;> decide

/-- The first mode and the first directionality that the sections of a label name. -/
theorem Restriction.parseBuilder_eq (label : List Char) : parseBuilder label =
    ⟨(label.splitOn ':').findSome? TransportMode.fromStr,
      (label.splitOn ':').findSome? Directionality.fromStr⟩ := by
  have hfold (sections : List (List Char)) (acc : RestrictionOptionals) :
      sections.foldl (fun acc part =>
          { transportMode := acc.transportMode.or (TransportMode.fromStr part)
            directionality := acc.directionality.or (Directionality.fromStr part) :
              RestrictionOptionals }) acc
        = ⟨acc.transportMode.or (sections.findSome? TransportMode.fromStr),
          acc.directionality.or (sections.findSome? Directionality.fromStr)⟩ := by
    induction sections generalizing acc with
    | nil => simp
    | cons part sections ih =>
      rw [List.foldl_cons, ih, List.findSome?_cons, List.findSome?_cons]
      cases TransportMode.fromStr part <;> cases Directionality.fromStr part <;> simp
  rw [parseBuilder, hfold, Option.none_or, Option.none_or]

/-- The directionality that a key names, or both ways. -/
def directionalityOf (key : String) : Directionality :=
  ((key.toList.splitOn ':').findSome? Directionality.fromStr).getD .bothWays

/-- A tag of the way gives this access to this mode in the direction: its key names the mode before
any other, and the direction or none, and its value names the access. -/
def Gives (tags : List (String × String)) (direction : Direction) (mode : TransportMode)
    (access : AccessValue) : Prop :=
  ∃ key, (key, access.name) ∈ tags ∧
    (key.toList.splitOn ':').findSome? TransportMode.fromStr = some mode ∧
    (⟨⟨mode, directionalityOf key⟩, access⟩ : AccessTag).matchesDirection direction = true

theorem AccessTag.fromTag_eq_some_iff {key value : String} {tag : AccessTag} :
    fromTag (key, value) = some tag ↔ value = tag.access.name ∧
      (key.toList.splitOn ':').findSome? TransportMode.fromStr
        = some tag.restriction.transportMode ∧
      directionalityOf key = tag.restriction.directionality := by
  obtain ⟨⟨mode, directionality⟩, access⟩ := tag
  simp only [fromTag, fromKeyValue, Restriction.parseRequireTransportMode,
    Restriction.parseBuilder_eq, Option.bind_eq_bind, Option.bind_eq_some_iff, Option.pure_def,
    Option.some.injEq, AccessTag.mk.injEq,
    directionalityOf]
  constructor
  · rintro ⟨access', haccess, restriction, ⟨mode', hmode, rfl⟩, ⟨rfl, rfl⟩, rfl⟩
    exact ⟨(String.toList_inj.mp (AccessValue.tryFrom_eq_some_iff.mp haccess)).symm, hmode, rfl⟩
  · rintro ⟨rfl, hmode, rfl⟩
    exact ⟨access, AccessValue.tryFrom_eq_some_iff.mpr rfl, _, ⟨mode, hmode, rfl⟩, rfl, rfl⟩

theorem AccessTag.applies_iff {tag : AccessTag} {conditions : OsmTripConfiguration}
    {direction : Direction} : tag.applies conditions direction = true ↔
      tag.restriction.transportMode ∈ conditions.transportMode.hierarchyChain ∧
        tag.matchesDirection direction = true := by
  rw [applies, Bool.and_eq_true, TransportMode.isRestrictedBy_iff]

/-- The tags that apply are those that give access to a mode of the trip's chain. -/
theorem exists_applies_iff {tags : List (String × String)} {mode : TransportMode}
    {access : AccessValue} :
    (∃ tag ∈ parseAccessTags tags, tag.applies conditions direction = true ∧
      tag.restriction.transportMode = mode ∧ tag.access = access) ↔
      mode ∈ conditions.transportMode.hierarchyChain ∧ Gives tags direction mode access := by
  constructor
  · rintro ⟨tag, htag, happlies, rfl, rfl⟩
    obtain ⟨⟨key, value⟩, hmem, htag⟩ := List.mem_filterMap.mp htag
    obtain ⟨rfl, hmode, hdirectionality⟩ := AccessTag.fromTag_eq_some_iff.mp htag
    obtain ⟨hchain, hdirection⟩ := AccessTag.applies_iff.mp happlies
    refine ⟨hchain, key, hmem, hmode, ?_⟩
    rw [hdirectionality]
    exact hdirection
  · rintro ⟨hchain, key, hmem, hmode, hdirection⟩
    exact ⟨⟨⟨mode, directionalityOf key⟩, access⟩,
      List.mem_filterMap.mpr ⟨_, hmem, AccessTag.fromTag_eq_some_iff.mpr ⟨rfl, hmode, rfl⟩⟩,
      AccessTag.applies_iff.mpr ⟨hchain, hdirection⟩, rfl, rfl⟩

theorem AccessTag.grants_iff {tag : AccessTag} : tag.grants conditions = true ↔
    tag.access = .yes ∨ tag.access = .private_ ∧ conditions.allowPrivateRoads = true := by
  unfold grants
  cases tag.access <;> simp

/-- **What the tags of a way say**: it is open to a mode in a direction, if none of them gives any
access to a mode of its chain there; and otherwise by the most specific mode of the chain that one
gives access to, and the last in the order of the accesses given to that. -/
theorem accessible_parseAccessTags_iff (metadata : OsmEdgeMetadata L AccessTag)
    (tags : List (String × String)) (conditions : OsmTripConfiguration) (direction : Direction) :
    { metadata with access := sortedByAccess (parseAccessTags tags) }.accessible
        conditions direction = true ↔
      (∀ mode ∈ conditions.transportMode.hierarchyChain, ∀ access,
        ¬ Gives tags direction mode access) ∨
      ∃ mode ∈ conditions.transportMode.hierarchyChain, ∃ access,
        Gives tags direction mode access ∧
        (∀ other ∈ conditions.transportMode.hierarchyChain, ∀ access',
          Gives tags direction other access' → other.specificityLevel ≤ mode.specificityLevel ∧
            (other = mode → access'.rank ≤ access.rank)) ∧
        (access = .yes ∨ access = .private_ ∧ conditions.allowPrivateRoads = true) := by
  rw [accessible_sortedByAccess_iff]
  refine or_congr ?_ ?_
  · constructor
    · intro hnone mode hmode access hgives
      obtain ⟨tag, htag, happlies, -⟩ := exists_applies_iff.mpr ⟨hmode, hgives⟩
      cases (hnone tag htag).symm.trans happlies
    · intro hnone tag htag
      rw [← Bool.not_eq_true]
      intro happlies
      obtain ⟨hmode, hgives⟩ := exists_applies_iff.mp ⟨tag, htag, happlies, rfl, rfl⟩
      exact hnone _ hmode _ hgives
  · constructor
    · rintro ⟨tag, hdecisive, hlast, hgrants⟩
      obtain ⟨⟨htag, happlies⟩, hmost⟩ := hdecisive
      obtain ⟨hmode, hgives⟩ := exists_applies_iff.mp ⟨tag, htag, happlies, rfl, rfl⟩
      refine ⟨_, hmode, _, hgives, fun other hother access' hgives' => ?_,
        AccessTag.grants_iff.mp hgrants⟩
      obtain ⟨tag', htag', happlies', rfl, rfl⟩ := exists_applies_iff.mpr ⟨hother, hgives'⟩
      refine ⟨hmost tag' htag' happlies', fun heq => hlast tag' ⟨⟨htag', happlies'⟩, ?_⟩⟩
      intro tag'' htag'' happlies''
      have hspecificity : tag'.specificity = tag.specificity :=
        congrArg TransportMode.specificityLevel heq
      rw [hspecificity]
      exact hmost tag'' htag'' happlies''
    · rintro ⟨mode, hmode, access, hgives, hmost, hgrants⟩
      obtain ⟨tag, htag, happlies, rfl, rfl⟩ := exists_applies_iff.mpr ⟨hmode, hgives⟩
      have hdecisive : Decisive (parseAccessTags tags) conditions direction tag := by
        refine ⟨⟨htag, happlies⟩, fun other hother happlies' => ?_⟩
        obtain ⟨hmode', hgives'⟩ := exists_applies_iff.mp ⟨other, hother, happlies', rfl, rfl⟩
        exact (hmost _ hmode' _ hgives').1
      refine ⟨tag, hdecisive, fun other hother => ?_, AccessTag.grants_iff.mpr hgrants⟩
      obtain ⟨hmode', hgives'⟩ := exists_applies_iff.mp ⟨other, hother.1.1, hother.1.2, rfl, rfl⟩
      exact (hmost _ hmode' _ hgives').2 (hother.transportMode_eq hdecisive)

end Routers
