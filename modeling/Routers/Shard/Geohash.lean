import Routers.Shard.Strategy
import Mathlib.Data.List.Induction
import Mathlib.Tactic.IntervalCases

/-!
# Geohashes

A geohash halves the world in turn across its longitudes and its latitudes, and packs the
choices five to a character, the first into the highest of its five bits.  What has been
packed after some number of turns is a function of the choices alone.

## Main definitions

* `Geohash`, `GeohashStrategy` — the identifiers and the strategy.
* `GeohashStrategy.locate`, `GeohashStrategy.bounds` — the encoding and the decoding.
* `Geohash.bits` — the choices that a geohash spells out.
* `Packer.packed` — the loop variables after some choices.

## Main results

* `Packer.Packs.push` — **one turn packs one choice.**
* `GeohashStrategy.partitions` — **the cells of a precision partition the world.**
* `GeohashStrategy.chars_isPrefix` — a coarser geohash is a prefix of a finer one.

## References

`src/libs/routers_shard/src/strategy/geohash.rs`.
-/

namespace Routers

/-- The characters a geohash may have. -/
def maxPrecision : ℕ := 12

/-- A geohash, by the indices of its base-32 characters, zero past its precision. -/
structure Geohash where
  data : List (BitVec 8)
  precision : ℕ
  deriving DecidableEq, Repr

/-- Geohashes of so many characters, up to those that an identifier holds. -/
structure GeohashStrategy where
  precision : ℕ
  one_le : 1 ≤ precision
  le_max : precision ≤ maxPrecision

namespace Geohash

/-- The characters of a geohash, by their index. -/
def chars (id : Geohash) : List (BitVec 8) := id.data.take id.precision

/-- The five bits of a character, from the highest on. -/
def unpack (ch : BitVec 8) : List Bool := [4, 3, 2, 1, 0].map ch.getLsbD

/-- The choices that a geohash spells out. -/
def bits (id : Geohash) : List Bool := id.chars.flatMap unpack

/-- A bit read as the decoding loop reads it. -/
theorem shiftRight_and_one (ch : BitVec 8) (i : ℕ) :
    ((ch >>> i) &&& 1#8 == 1#8) = ch.getLsbD i := by
  rw [BitVec.and_one_eq_setWidth_ofBool_getLsbD, BitVec.getLsbD_ushiftRight, Nat.add_zero]
  cases ch.getLsbD i <;> rfl

@[simp] theorem length_unpack (ch : BitVec 8) : (unpack ch).length = 5 := rfl

/-- Setting the next bit of a character appends to what it spells out. -/
theorem unpack_set (ch : BitVec 8) {bit : ℕ} (h : bit ≤ 4) :
    (unpack (ch ||| 1#8 <<< (4 - bit))).take (bit + 1) = (unpack ch).take bit ++ [true] := by
  interval_cases bit <;> simp [unpack]

/-- Leaving the next bit clear appends to what it spells out. -/
theorem unpack_clear (ch : BitVec 8) {bit : ℕ} (h : bit ≤ 4) (hch : ch.getLsbD (4 - bit) = false) :
    (unpack ch).take (bit + 1) = (unpack ch).take bit ++ [false] := by
  interval_cases bit <;> simp_all [unpack]

end Geohash

open Geohash

/-! ### The encoding loop -/

/-- The variables of the encoding loop, the four sides of the cell as a rectangle. -/
structure Packer where
  rect : Rect
  out : List (BitVec 8)
  cursor : ℕ
  bit : ℕ
  ch : BitVec 8
  even : Bool

namespace Packer

/-- Before the first turn. -/
def start : Packer := ⟨world, List.replicate maxPrecision 0, 0, 0, 0, true⟩

/-- One turn of the loop. -/
def turn (px py : ℚ) (s : Packer) : Packer :=
  let s :=
    if s.even then
      let mid := 1 / 2 * (s.rect.min.x + s.rect.max.x)
      if px ≥ mid then
        { s with
          ch := s.ch ||| 1#8 <<< (4 - s.bit)
          rect := ⟨⟨mid, s.rect.min.y⟩, s.rect.max⟩ }
      else { s with rect := ⟨s.rect.min, ⟨mid, s.rect.max.y⟩⟩ }
    else
      let mid := 1 / 2 * (s.rect.min.y + s.rect.max.y)
      if py ≥ mid then
        { s with
          ch := s.ch ||| 1#8 <<< (4 - s.bit)
          rect := ⟨⟨s.rect.min.x, mid⟩, s.rect.max⟩ }
      else { s with rect := ⟨s.rect.min, ⟨s.rect.max.x, mid⟩⟩ }
  let s := { s with even := !s.even }
  if s.bit < 4 then { s with bit := s.bit + 1 }
  else { s with out := s.out.set s.cursor s.ch, cursor := s.cursor + 1, bit := 0, ch := 0 }

theorem turn_progress (px py : ℚ) (s : Packer) {precision : ℕ} (h : s.cursor < precision) :
    5 * (precision - (turn px py s).cursor) + (4 - (turn px py s).bit)
      < 5 * (precision - s.cursor) + (4 - s.bit) := by
  unfold turn
  dsimp only
  split_ifs <;> simp_all <;> omega

/-- The loop: turn until all characters are out. -/
def run (px py : ℚ) (precision : ℕ) (s : Packer) : Packer :=
  if s.cursor < precision then run px py precision (turn px py s) else s
termination_by 5 * (precision - s.cursor) + (4 - s.bit)
decreasing_by exact turn_progress px py s ‹_›

end Packer

namespace GeohashStrategy

variable (strategy : GeohashStrategy)

/-- The cell of a point: the world is halved by turns, and the halves are packed in characters. -/
def locate (point : Point) : Geohash :=
  let px := clampTo point.x world.min.x world.max.x
  let py := clampTo point.y world.min.y world.max.y
  let s := Packer.run px py strategy.precision Packer.start
  ⟨s.out, s.cursor⟩

/-- The box of a cell, by its characters. -/
def bounds (id : Geohash) : Rect :=
  (id.chars.foldl (fun s idx =>
    [4, 3, 2, 1, 0].foldl (fun (s : Bool × Rect) i =>
      let bit := (idx >>> i) &&& 1#8
      (!s.1, s.2.narrow s.1 (bit == 1#8))) s) (true, world)).2

/-- The cells around a cell. -/
def neighbours (id : Geohash) : List Geohash := probeNeighbours strategy.locate bounds id

/-- Geohashes as a sharding strategy. -/
def toStrategy : ShardingStrategy Geohash := ⟨strategy.locate, bounds, strategy.neighbours⟩

end GeohashStrategy

/-! ### What the loop packs -/

namespace Packer

/-- One turn, by the half that is chosen. -/
def push (s : Packer) (upper : Bool) : Packer :=
  let ch := if upper then s.ch ||| 1#8 <<< (4 - s.bit) else s.ch
  { rect := s.rect.narrow s.even upper
    out := if s.bit < 4 then s.out else s.out.set s.cursor ch
    cursor := if s.bit < 4 then s.cursor else s.cursor + 1
    bit := if s.bit < 4 then s.bit + 1 else 0
    ch := if s.bit < 4 then ch else 0
    even := !s.even }

/-- The half that a turn chooses. -/
def upper (px py : ℚ) (s : Packer) : Bool :=
  if s.even then decide (1 / 2 * (s.rect.min.x + s.rect.max.x) ≤ px)
  else decide (1 / 2 * (s.rect.min.y + s.rect.max.y) ≤ py)

/-- A turn sees of the point only which half it lies in. -/
theorem turn_eq (px py : ℚ) (s : Packer) : turn px py s = s.push (s.upper px py) := by
  unfold turn push upper Rect.narrow
  cases he : s.even with
  | true =>
    by_cases hp : 1 / 2 * (s.rect.min.x + s.rect.max.x) ≤ px
    · by_cases hbit : s.bit < 4 <;> simp only [if_true, ge_iff_le, hp, hbit, decide_true, if_false]
    · by_cases hbit : s.bit < 4 <;>
        simp only [if_true, ge_iff_le, hp, hbit, decide_false, if_false, Bool.false_eq_true]
  | false =>
    by_cases hp : 1 / 2 * (s.rect.min.y + s.rect.max.y) ≤ py
    · by_cases hbit : s.bit < 4 <;>
        simp only [if_true, ge_iff_le, hp, hbit, decide_true, if_false, Bool.false_eq_true]
    · by_cases hbit : s.bit < 4 <;>
        simp only [if_true, ge_iff_le, hp, hbit, decide_false, if_false, Bool.false_eq_true]

/-- The loop variables after some choices. -/
def packed (l : List Bool) : Packer := l.foldl push start

@[simp] theorem packed_nil : packed [] = start := rfl

theorem packed_append_singleton (l : List Bool) (b : Bool) :
    packed (l ++ [b]) = (packed l).push b := by
  rw [packed, List.foldl_append]
  rfl

/-- What the loop variables spell out, between two turns. -/
structure Packs (s : Packer) (l : List Bool) : Prop where
  bit_le : s.bit ≤ 4
  length : l.length = 5 * s.cursor + s.bit
  length_out : s.out.length = maxPrecision
  spells : (s.out.take s.cursor).flatMap unpack ++ (unpack s.ch).take s.bit = l
  clear : ∀ i, s.bit ≤ i → i ≤ 4 → s.ch.getLsbD (4 - i) = false

theorem packs_start : Packs start [] := by
  refine ⟨Nat.zero_le _, rfl, rfl, rfl, fun i _ _ => ?_⟩
  simp [start]

/-- What the current character spells out after one more choice. -/
theorem Packs.unpack_ch {s : Packer} {l : List Bool} (h : Packs s l) (b : Bool) :
    (unpack (if b then s.ch ||| 1#8 <<< (4 - s.bit) else s.ch)).take (s.bit + 1)
      = (unpack s.ch).take s.bit ++ [b] := by
  cases b with
  | true => exact unpack_set s.ch h.bit_le
  | false => exact unpack_clear s.ch h.bit_le (h.clear s.bit le_rfl h.bit_le)

/-- **One turn packs one choice**, as long as there is room for its character. -/
theorem Packs.push {s : Packer} {l : List Bool} (h : Packs s l) (hroom : s.cursor < maxPrecision)
    (b : Bool) : Packs (s.push b) (l ++ [b]) := by
  have hch := h.unpack_ch b
  have hlen := h.length
  have hout := h.length_out
  by_cases hbit : s.bit < 4
  · constructor
    · simp only [Packer.push, if_pos hbit]
      exact hbit
    · simp only [Packer.push, if_pos hbit, List.length_append, List.length_singleton]
      omega
    · simp only [Packer.push, if_pos hbit, hout]
    · simp only [Packer.push, if_pos hbit]
      rw [hch, ← List.append_assoc, h.spells]
    · intro i hi hi4
      simp only [Packer.push, if_pos hbit] at hi ⊢
      have hclear := h.clear i (by omega) hi4
      cases b with
      | false => exact hclear
      | true =>
        simp only [if_true, BitVec.getLsbD_or, hclear, Bool.false_or, BitVec.getLsbD_shiftLeft]
        have hlt : 4 - i < 4 - s.bit := by omega
        simp [hlt]
  · -- The character is full: it is stored, and a clear one begun.
    have hbit4 : s.bit = 4 := by have := h.bit_le; omega
    constructor
    · simp only [Packer.push, if_neg hbit, Nat.zero_le]
    · simp only [Packer.push, if_neg hbit, List.length_append, List.length_singleton]
      omega
    · simp only [Packer.push, if_neg hbit, List.length_set, hout]
    · simp only [Packer.push, if_neg hbit]
      rw [hbit4, List.take_of_length_le (by simp)] at hch
      rw [List.take_add_one, List.take_set_of_le le_rfl, List.getElem?_set_self (by omega),
        List.flatMap_append, Option.toList_some, List.flatMap_singleton, List.take_zero,
        List.append_nil, ← hbit4]
      rw [← hbit4] at hch
      rw [hch, ← List.append_assoc, h.spells]
    · intro i _ _
      simp [Packer.push, if_neg hbit]

theorem packs_packed (l : List Bool) (h : l.length ≤ 5 * maxPrecision) : Packs (packed l) l := by
  induction l using List.reverseRecOn with
  | nil => exact packs_start
  | append_singleton l b ih =>
    rw [List.length_append, List.length_singleton] at h
    have hl := ih (by omega)
    have := hl.length
    rw [packed_append_singleton]
    exact hl.push (by omega) b

/-- The characters that are out. -/
def stored (s : Packer) : List (BitVec 8) := s.out.take s.cursor

theorem stored_push (s : Packer) (b : Bool) : s.stored <+: (s.push b).stored := by
  unfold stored push
  by_cases hbit : s.bit < 4
  · simp only [if_pos hbit]
    exact List.prefix_rfl
  · simp only [if_neg hbit]
    rw [← List.take_set_of_le (le_refl s.cursor)]
    exact List.take_prefix_take_left (Nat.le_succ _)

/-- What is out stays as further choices are packed. -/
theorem stored_packed_append (l l' : List Bool) :
    (packed l).stored <+: (packed (l ++ l')).stored := by
  induction l' using List.reverseRecOn with
  | nil => simp only [List.append_nil, List.prefix_rfl]
  | append_singleton l' b ih =>
    rw [← List.append_assoc, packed_append_singleton]
    exact ih.trans (stored_push _ b)

/-! ### The cell of a packing -/

/-- Halving the world in turn, the longitudes first. -/
abbrev halving : Subdivision (Bool × Box) (ℚ × ℚ) Bool :=
  (Side.bisection world.max.x).alternate (Side.bisection world.max.y)

/-- The whole world, to be halved from west to east. -/
abbrev halvingRoot : Bool × Box := (true, Box.root)

theorem child_halving (s : Bool × Box) (b : Bool) :
    ((halving.child s b).1, (halving.child s b).2.toRect) = (!s.1, s.2.toRect.narrow s.1 b) := by
  obtain ⟨even, box⟩ := s
  cases even with
  | true => exact congrArg _ (Box.toRect_half_fst box b)
  | false => exact congrArg _ (Box.toRect_half_snd box b)

/-- Narrowing by some choices, the longitudes first, leads to their cell. -/
theorem foldl_narrow (l : List Bool) (s : Bool × Box) :
    l.foldl (fun (s : Bool × Rect) b => (!s.1, s.2.narrow s.1 b)) (s.1, s.2.toRect)
      = ((halving.cell s l).1, (halving.cell s l).2.toRect) := by
  induction l generalizing s with
  | nil => rfl
  | cons b l ih => rw [List.foldl_cons, ← child_halving, ih, Subdivision.cell_cons]

theorem packed_rect (l : List Bool) :
    ((packed l).even, (packed l).rect) = ((halving.cell halvingRoot l).1,
      (halving.cell halvingRoot l).2.toRect) := by
  rw [← foldl_narrow]
  induction l using List.reverseRecOn with
  | nil => rfl
  | append_singleton l b ih =>
    rw [packed_append_singleton, List.foldl_append, List.foldl_cons, List.foldl_nil, ← ih]
    rfl

/-- A turn chooses the half that the point lies in. -/
theorem upper_packed (px py : ℚ) (l : List Bool) :
    (packed l).upper px py = halving.choose (halving.cell halvingRoot l) (px, py) := by
  obtain ⟨heven, hrect⟩ := Prod.ext_iff.mp (packed_rect l)
  dsimp only at heven hrect
  rw [upper, heven, hrect]
  show _ = if (halving.cell halvingRoot l).1 then _ else _
  simp only [Box.toRect, Side.bisection, Side.mid, one_div, inv_mul_eq_div]
  rfl

/-- **The loop packs the path of the point.** -/
theorem run_packed (px py : ℚ) {precision n : ℕ} (hmax : precision ≤ maxPrecision)
    (hn : n ≤ 5 * precision) :
    run px py precision (packed (halving.path halvingRoot (px, py) n))
      = packed (halving.path halvingRoot (px, py) (5 * precision)) := by
  have hpacks := packs_packed (halving.path halvingRoot (px, py) n) (by simp; omega)
  have hlen := hpacks.length
  have hbit := hpacks.bit_le
  rw [Subdivision.length_path] at hlen
  rw [run]
  obtain hlt | rfl := hn.lt_or_eq
  · rw [if_pos (by omega), turn_eq, upper_packed, ← packed_append_singleton,
      ← Subdivision.path_succ_last]
    exact run_packed px py hmax hlt
  · rw [if_neg (by omega)]
termination_by 5 * precision - n

end Packer

namespace GeohashStrategy

open Packer

variable (strategy : GeohashStrategy)

/-- The path of a point, five choices a character. -/
def path (point : Point) : List Bool :=
  halving.path halvingRoot (point.clamp.x, point.clamp.y) (5 * strategy.precision)

/-- The geohash that spells out a path. -/
def encode (l : List Bool) : Geohash := ⟨(packed l).out, (packed l).cursor⟩

@[simp] theorem length_path (point : Point) :
    (strategy.path point).length = 5 * strategy.precision := halving.length_path _ _ _

theorem locate_eq (point : Point) : strategy.locate point = encode (strategy.path point) := by
  have h := run_packed point.clamp.x point.clamp.y strategy.le_max (Nat.zero_le _)
  rw [Subdivision.path_zero, packed_nil] at h
  simp only [locate, encode, path, ← h]
  rfl

/-- What a path of whole characters is encoded to spells it out. -/
theorem bits_encode {l : List Bool} {precision : ℕ} (hmax : precision ≤ maxPrecision)
    (hl : l.length = 5 * precision) : (encode l).bits = l ∧ (encode l).precision = precision := by
  have hpacks := packs_packed l (by omega)
  have hlen := hpacks.length
  have hbit := hpacks.bit_le
  have hzero : (packed l).bit = 0 := by omega
  have hspells := hpacks.spells
  rw [hzero, List.take_zero, List.append_nil] at hspells
  exact ⟨hspells, by simp only [encode]; omega⟩

/-- Decoding narrows the world by what a geohash spells out. -/
theorem bounds_eq (id : Geohash) :
    bounds id = (halving.cell halvingRoot id.bits).2.toRect := by
  have h := congrArg Prod.snd (foldl_narrow id.bits halvingRoot)
  dsimp only at h
  rw [← h, Geohash.bits, List.foldl_flatMap]
  simp only [bounds, shiftRight_and_one, unpack, List.foldl_map]
  rfl

/-- **The cells of a precision partition the world.** -/
theorem partitions : strategy.toStrategy.Partitions := by
  refine .of_subdivision halving halvingRoot (fun s => s.2.toRect) (5 * strategy.precision) encode
    (fun s p => Iff.rfl) rfl strategy.locate_eq ?_ ?_
  · intro l hl
    have h := bounds_eq (encode l)
    rwa [(bits_encode strategy.le_max hl).1] at h
  · intro l l' hl hl' h
    rw [← (bits_encode strategy.le_max hl).1, h, (bits_encode strategy.le_max hl').1]

theorem length_chars (point : Point) : (strategy.locate point).chars.length = strategy.precision := by
  have hpacks := packs_packed (strategy.path point)
    (by rw [length_path]; exact Nat.mul_le_mul_left 5 strategy.le_max)
  have henc := (bits_encode strategy.le_max (strategy.length_path point)).2
  rw [locate_eq, Geohash.chars, henc, List.length_take, encode, hpacks.length_out]
  exact Nat.min_eq_left strategy.le_max

/-- **A coarser geohash of a point is a prefix of a finer one.** -/
theorem chars_isPrefix (finer : GeohashStrategy) (h : strategy.precision ≤ finer.precision)
    (point : Point) : (strategy.locate point).chars <+: (finer.locate point).chars := by
  obtain ⟨l, hl⟩ := halving.path_isPrefix halvingRoot (point.clamp.x, point.clamp.y)
    (Nat.mul_le_mul_left 5 h)
  rw [locate_eq, locate_eq]
  have hstored := stored_packed_append (strategy.path point) l
  rw [path, hl] at hstored
  exact hstored

end GeohashStrategy

end Routers
