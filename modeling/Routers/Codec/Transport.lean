import Mathlib.Data.List.Basic
import Mathlib.Data.Nat.Notation
import Mathlib.Tactic.Common

/-!
# Modes of transport

The modes of transport form a tree: each has a chain of modes from the most general one down
to itself.  A restriction on a mode concerns the modes whose chain contains it; the program
tests this by a set of flags with a bit for each mode.

## Main definitions

* `TransportMode`, `TransportMode.fromStr` — the modes and their names.
* `TransportMode.hierarchyChain`, `TransportMode.specificityLevel` — the tree.
* `TransportMode.isRestrictedBy` — the test by flags.

## Main results

* `TransportMode.isRestrictedBy_iff` — **the flags tell what the chains say.**
* `TransportMode.eq_of_specificityLevel_eq` — of the modes that restrict another one, no two are
  equally specific.

## References

`src/libs/routers_codec/src/osm/parsers/primitives/transport.rs`.
-/

namespace Routers

/-- The modes of transport that a tag may name. -/
inductive TransportMode
  | all | foot | dog | ski | skiNordic | skiAlpine | skiTelemark | inlineSkates | horse | portage
  | bicycle | electricBicycle | mtb | cargoBike | kickScooter | carriage | cycleRickshaw
  | handCart | trailer | caravan | vehicle | motorVehicle | motorcycle | moped | speedPedelec
  | mofa | smallElectricVehicle | motorcar | motorhome | touristBus | coach | goods | hgv
  | hgvArticulated | bdouble | agricultural | autoRickshaw | nev | golfCart | microcar | atv | ohv
  | snowmobile | psv | bus | taxi | minibus | shareTaxi | hov | carpool | carSharing | emergency
  | hazmat | hazmatWater | schoolBus | disabled | waterAccess | swimming | iceSkates | boat
  | motorboat | sailboat | canoe | fishingVessel | ship | passenger | cargo | bulk | tanker
  | tankerGas | tankerOil | tankerChemical | tankerSinglehull | container | imdg | isps
  | railAccess | train | tram | metro
  deriving DecidableEq, Repr, Inhabited

namespace TransportMode

/-- The modes, in order. -/
def modes : List TransportMode :=
  [all, foot, dog, ski, skiNordic, skiAlpine, skiTelemark, inlineSkates, horse, portage, bicycle,
    electricBicycle, mtb, cargoBike, kickScooter, carriage, cycleRickshaw, handCart, trailer,
    caravan, vehicle, motorVehicle, motorcycle, moped, speedPedelec, mofa, smallElectricVehicle,
    motorcar, motorhome, touristBus, coach, goods, hgv, hgvArticulated, bdouble, agricultural,
    autoRickshaw, nev, golfCart, microcar, atv, ohv, snowmobile, psv, bus, taxi, minibus,
    shareTaxi, hov, carpool, carSharing, emergency, hazmat, hazmatWater, schoolBus, disabled,
    waterAccess, swimming, iceSkates, boat, motorboat, sailboat, canoe, fishingVessel, ship,
    passenger, cargo, bulk, tanker, tankerGas, tankerOil, tankerChemical, tankerSinglehull,
    container, imdg, isps, railAccess, train, tram, metro]

/-- The name of a mode in a tag. -/
def name : TransportMode → String
  | all => "access"
  | foot => "foot"
  | dog => "dog"
  | ski => "ski"
  | skiNordic => "ski:nordic"
  | skiAlpine => "ski:alpine"
  | skiTelemark => "ski:telemark"
  | inlineSkates => "inline_skates"
  | horse => "horse"
  | portage => "portage"
  | bicycle => "bicycle"
  | electricBicycle => "electric_bicycle"
  | mtb => "mtb"
  | cargoBike => "cargo_bike"
  | kickScooter => "kick_scooter"
  | carriage => "carriage"
  | cycleRickshaw => "cycle_rickshaw"
  | handCart => "hand_cart"
  | trailer => "trailer"
  | caravan => "caravan"
  | vehicle => "vehicle"
  | motorVehicle => "motor_vehicle"
  | motorcycle => "motorcycle"
  | moped => "moped"
  | speedPedelec => "speed_pedelec"
  | mofa => "mofa"
  | smallElectricVehicle => "small_electric_vehicle"
  | motorcar => "motorcar"
  | motorhome => "motorhome"
  | touristBus => "tourist_bus"
  | coach => "coach"
  | goods => "goods"
  | hgv => "hgv"
  | hgvArticulated => "hgv_articulated"
  | bdouble => "bdouble"
  | agricultural => "agricultural"
  | autoRickshaw => "auto_rickshaw"
  | nev => "nev"
  | golfCart => "golf_cart"
  | microcar => "microcar"
  | atv => "atv"
  | ohv => "ohv"
  | snowmobile => "snowmobile"
  | psv => "psv"
  | bus => "bus"
  | taxi => "taxi"
  | minibus => "minibus"
  | shareTaxi => "share_taxi"
  | hov => "hov"
  | carpool => "carpool"
  | carSharing => "car_sharing"
  | emergency => "emergency"
  | hazmat => "hazmat"
  | hazmatWater => "hazmat:water"
  | schoolBus => "school_bus"
  | disabled => "disabled"
  | waterAccess => "water_access"
  | swimming => "swimming"
  | iceSkates => "ice_skates"
  | boat => "boat"
  | motorboat => "motorboat"
  | sailboat => "sailboat"
  | canoe => "canoe"
  | fishingVessel => "fishing_vessel"
  | ship => "ship"
  | passenger => "passenger"
  | cargo => "cargo"
  | bulk => "bulk"
  | tanker => "tanker"
  | tankerGas => "tanker:gas"
  | tankerOil => "tanker:oil"
  | tankerChemical => "tanker:chemical"
  | tankerSinglehull => "tanker:singlehull"
  | container => "container"
  | imdg => "imdg"
  | isps => "isps"
  | railAccess => "rail_access"
  | train => "train"
  | tram => "tram"
  | metro => "metro"

/-- The mode that a section of a key names. -/
def fromStr (s : List Char) : Option TransportMode := modes.find? fun mode => mode.name.toList = s

/-! ### The tree -/

/-- The modes from the most general one down to the mode itself. -/
def hierarchyChain : TransportMode → List TransportMode
  | all => [all]
  | foot => [all, foot]
  | dog => [all, dog]
  | ski => [all, ski]
  | skiNordic => [all, ski, skiNordic]
  | skiAlpine => [all, ski, skiAlpine]
  | skiTelemark => [all, ski, skiTelemark]
  | inlineSkates => [all, inlineSkates]
  | horse => [all, horse]
  | portage => [all, portage]
  | bicycle => [all, vehicle, bicycle]
  | electricBicycle => [all, vehicle, bicycle, electricBicycle]
  | mtb => [all, vehicle, bicycle, mtb]
  | cargoBike => [all, vehicle, bicycle, cargoBike]
  | kickScooter => [all, vehicle, kickScooter]
  | carriage => [all, vehicle, carriage]
  | cycleRickshaw => [all, vehicle, cycleRickshaw]
  | handCart => [all, vehicle, handCart]
  | trailer => [all, vehicle, trailer]
  | caravan => [all, vehicle, caravan]
  | vehicle => [all, vehicle]
  | motorVehicle => [all, vehicle, motorVehicle]
  | motorcycle => [all, vehicle, motorVehicle, motorcycle]
  | moped => [all, vehicle, motorVehicle, moped]
  | speedPedelec => [all, vehicle, motorVehicle, speedPedelec]
  | mofa => [all, vehicle, motorVehicle, mofa]
  | smallElectricVehicle => [all, vehicle, motorVehicle, smallElectricVehicle]
  | motorcar => [all, vehicle, motorVehicle, motorcar]
  | motorhome => [all, vehicle, motorVehicle, motorhome]
  | touristBus => [all, vehicle, motorVehicle, touristBus]
  | coach => [all, vehicle, motorVehicle, coach]
  | goods => [all, vehicle, motorVehicle, goods]
  | hgv => [all, vehicle, motorVehicle, goods, hgv]
  | hgvArticulated => [all, vehicle, motorVehicle, goods, hgv, hgvArticulated]
  | bdouble => [all, vehicle, motorVehicle, goods, hgv, bdouble]
  | agricultural => [all, vehicle, motorVehicle, agricultural]
  | autoRickshaw => [all, vehicle, motorVehicle, autoRickshaw]
  | nev => [all, vehicle, motorVehicle, nev]
  | golfCart => [all, vehicle, motorVehicle, golfCart]
  | microcar => [all, vehicle, motorVehicle, microcar]
  | atv => [all, vehicle, motorVehicle, atv]
  | ohv => [all, vehicle, motorVehicle, ohv]
  | snowmobile => [all, vehicle, motorVehicle, snowmobile]
  | psv => [all, vehicle, motorVehicle, psv]
  | bus => [all, vehicle, motorVehicle, psv, bus]
  | taxi => [all, vehicle, motorVehicle, taxi]
  | minibus => [all, vehicle, motorVehicle, psv, bus, minibus]
  | shareTaxi => [all, vehicle, motorVehicle, taxi, shareTaxi]
  | hov => [all, vehicle, motorVehicle, hov]
  | carpool => [all, vehicle, motorVehicle, hov, carpool]
  | carSharing => [all, vehicle, motorVehicle, carSharing]
  | emergency => [all, vehicle, motorVehicle, emergency]
  | hazmat => [all, vehicle, motorVehicle, hazmat]
  | hazmatWater => [all, vehicle, motorVehicle, hazmat, hazmatWater]
  | schoolBus => [all, vehicle, motorVehicle, psv, bus, schoolBus]
  | disabled => [all, vehicle, motorVehicle, disabled]
  | waterAccess => [waterAccess]
  | swimming => [waterAccess, swimming]
  | iceSkates => [waterAccess, iceSkates]
  | boat => [waterAccess, boat]
  | motorboat => [waterAccess, boat, motorboat]
  | sailboat => [waterAccess, boat, sailboat]
  | canoe => [waterAccess, boat, canoe]
  | fishingVessel => [waterAccess, boat, fishingVessel]
  | ship => [waterAccess, boat, ship]
  | passenger => [waterAccess, boat, ship, passenger]
  | cargo => [waterAccess, boat, ship, cargo]
  | bulk => [waterAccess, boat, ship, cargo, bulk]
  | tanker => [waterAccess, boat, ship, cargo, tanker]
  | tankerGas => [waterAccess, boat, ship, cargo, tanker, tankerGas]
  | tankerOil => [waterAccess, boat, ship, cargo, tanker, tankerOil]
  | tankerChemical => [waterAccess, boat, ship, cargo, tanker, tankerChemical]
  | tankerSinglehull => [waterAccess, boat, ship, cargo, tanker, tankerSinglehull]
  | container => [waterAccess, boat, ship, cargo, container]
  | imdg => [waterAccess, boat, ship, imdg]
  | isps => [waterAccess, boat, ship, isps]
  | railAccess => [railAccess]
  | train => [railAccess, train]
  | tram => [railAccess, tram]
  | metro => [railAccess, metro]

/-- How deep in the tree a mode is. -/
def specificityLevel (mode : TransportMode) : ℕ := mode.hierarchyChain.length

/-! ### Flags -/

/-- The number of the bit of a mode. -/
def bit : TransportMode → ℕ
  | all => 0
  | foot => 1
  | dog => 2
  | ski => 3
  | skiNordic => 4
  | skiAlpine => 5
  | skiTelemark => 6
  | inlineSkates => 7
  | horse => 8
  | portage => 9
  | bicycle => 10
  | electricBicycle => 11
  | mtb => 12
  | cargoBike => 13
  | kickScooter => 14
  | carriage => 15
  | cycleRickshaw => 16
  | handCart => 17
  | trailer => 18
  | caravan => 19
  | vehicle => 20
  | motorVehicle => 21
  | motorcycle => 22
  | moped => 23
  | speedPedelec => 24
  | mofa => 25
  | smallElectricVehicle => 26
  | motorcar => 27
  | motorhome => 28
  | touristBus => 29
  | coach => 30
  | goods => 31
  | hgv => 32
  | hgvArticulated => 33
  | bdouble => 34
  | agricultural => 35
  | autoRickshaw => 36
  | nev => 37
  | golfCart => 38
  | microcar => 39
  | atv => 40
  | ohv => 41
  | snowmobile => 42
  | psv => 43
  | bus => 44
  | taxi => 45
  | minibus => 46
  | shareTaxi => 47
  | hov => 48
  | carpool => 49
  | carSharing => 50
  | emergency => 51
  | hazmat => 52
  | hazmatWater => 53
  | schoolBus => 54
  | disabled => 55
  | waterAccess => 56
  | swimming => 57
  | iceSkates => 58
  | boat => 59
  | motorboat => 60
  | sailboat => 61
  | canoe => 62
  | fishingVessel => 63
  | ship => 64
  | passenger => 65
  | cargo => 66
  | bulk => 67
  | tanker => 68
  | tankerGas => 69
  | tankerOil => 70
  | tankerChemical => 71
  | tankerSinglehull => 72
  | container => 73
  | imdg => 74
  | isps => 75
  | railAccess => 76
  | train => 77
  | tram => 78
  | metro => 79

/-- The flag of a mode, a bit of its own. -/
def toFlag (mode : TransportMode) : BitVec 128 := (1 : BitVec 128) <<< mode.bit

/-- The flags of several modes. -/
def union (modes : List TransportMode) : BitVec 128 :=
  modes.foldl (fun flags mode => flags ||| mode.toFlag) 0

/-- The flags of the modes of the chain, spelled out in the source one by one. -/
def hierarchyChainFlags (mode : TransportMode) : BitVec 128 := union mode.hierarchyChain

/-- A restriction on the other mode concerns this one: its flag is among those of the chain. -/
def isRestrictedBy (mode restrictionMode : TransportMode) : Bool :=
  mode.hierarchyChainFlags &&& restrictionMode.toFlag = restrictionMode.toFlag

/-- The bits count the modes in order. -/
theorem getElem?_modes_bit (mode : TransportMode) : modes[mode.bit]? = some mode := by
  cases mode <;> rfl

theorem bit_injective {a b : TransportMode} (h : a.bit = b.bit) : a = b := by
  have ha := getElem?_modes_bit a
  rw [h, getElem?_modes_bit b] at ha
  exact (Option.some.inj ha).symm

theorem bit_lt (mode : TransportMode) : mode.bit < 128 := by
  obtain ⟨hlt, -⟩ := List.getElem?_eq_some_iff.mp (getElem?_modes_bit mode)
  exact Nat.lt_of_lt_of_le hlt (by decide)

theorem getLsbD_toFlag (mode : TransportMode) (n : ℕ) :
    mode.toFlag.getLsbD n = decide (mode.bit = n) := by
  have hbit := mode.bit_lt
  rw [toFlag, BitVec.getLsbD_shiftLeft]
  by_cases h : mode.bit = n
  · subst h
    simp [hbit]
  · simp [h]
    omega

theorem getLsbD_union (l : List TransportMode) (n : ℕ) :
    (union l).getLsbD n ↔ ∃ mode ∈ l, mode.bit = n := by
  have hfold (flags : BitVec 128) : (l.foldl (fun flags mode => flags ||| mode.toFlag) flags).getLsbD n
      ↔ flags.getLsbD n ∨ ∃ mode ∈ l, mode.bit = n := by
    induction l generalizing flags with
    | nil => simp
    | cons mode l ih => simp [ih, getLsbD_toFlag, or_assoc]
  simpa [union] using hfold 0

/-- **The flags tell what the chains say.** -/
theorem isRestrictedBy_iff (mode restrictionMode : TransportMode) :
    mode.isRestrictedBy restrictionMode ↔ restrictionMode ∈ mode.hierarchyChain := by
  have hmem : restrictionMode ∈ mode.hierarchyChain ↔
      mode.hierarchyChainFlags.getLsbD restrictionMode.bit := by
    rw [hierarchyChainFlags, getLsbD_union]
    refine ⟨fun h => ⟨_, h, rfl⟩, ?_⟩
    rintro ⟨other, hother, hbit⟩
    rwa [← bit_injective hbit]
  rw [hmem, isRestrictedBy, decide_eq_true_eq]
  constructor
  · intro h
    have hbit := congrArg (BitVec.getLsbD · restrictionMode.bit) h
    simpa [getLsbD_toFlag] using hbit
  · intro h
    refine BitVec.eq_of_getLsbD_eq fun n hn => ?_
    rw [BitVec.getLsbD_and, getLsbD_toFlag]
    by_cases hbit : restrictionMode.bit = n
    · subst hbit
      simp [h]
    · simp [hbit]

/-- The chain of a mode of a chain is its beginning. -/
theorem take_hierarchyChain (mode : TransportMode) :
    ∀ other ∈ mode.hierarchyChain, mode.hierarchyChain.take other.specificityLevel
      = other.hierarchyChain := by
  cases mode <;> decide

theorem getLast?_hierarchyChain (mode : TransportMode) :
    mode.hierarchyChain.getLast? = some mode := by
  cases mode <;> rfl

/-- **Of the modes that restrict another one, no two are equally specific.** -/
theorem eq_of_specificityLevel_eq {mode a b : TransportMode} (ha : mode.isRestrictedBy a)
    (hb : mode.isRestrictedBy b) (h : a.specificityLevel = b.specificityLevel) : a = b := by
  have hchain : a.hierarchyChain = b.hierarchyChain := by
    rw [← take_hierarchyChain mode a ((isRestrictedBy_iff mode a).mp ha), h,
      take_hierarchyChain mode b ((isRestrictedBy_iff mode b).mp hb)]
  have hlast := getLast?_hierarchyChain a
  rw [hchain, getLast?_hierarchyChain b] at hlast
  exact (Option.some.inj hlast).symm


end TransportMode

end Routers
