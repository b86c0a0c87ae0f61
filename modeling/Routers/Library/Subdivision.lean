import Mathlib.Algebra.Order.Field.Basic
import Mathlib.Data.Int.Cast.Lemmas
import Mathlib.Data.List.Basic
import Mathlib.Tactic.Linarith
import Mathlib.Tactic.Ring

/-!
# Subdivisions

A subdivision splits a cell into children, one of which each point of the cell chooses.
Descending from a root, a point spells out a path, and a path spells out a cell.  The law of
one split is enough for the two to be inverse at every depth, so that the cells of a depth
partition the root.

Where intervals are halved, the cells of a depth are slots of one width on an axis, closed on both
sides.  A point a quarter of a slot past either side of a slot lies in the next one and in no other,
so that the slots a slot meets are found by three probes.

## Main definitions

* `Subdivision` — cells, what lies in them, and how they split.
* `Subdivision.path`, `Subdivision.cell` — the descent of a point, and the cell of a path.
* `Subdivision.prod`, `Subdivision.alternate` — splitting two coordinates at once, or in turn.
* `Side`, `Side.bisection` — an interval, half-open below the top, and its halves.
* `Axis`, `Axis.lo`, `Axis.Holds` — the slots of an axis, where they begin and the points of them.
* `Axis.probe` — the middle of a slot, or a point past one of its ends.
* `Axis.halve`, `Side.Slot` — the axis with twice the slots, and the intervals that are slots.

## Main results

* `Subdivision.mem_cell` — **a point lies in the cell of a path iff the path is its own.**
* `Subdivision.path_isPrefix` — a shorter path of a point is a prefix of a longer one.
* `Axis.holds_probe_iff` — **a probe lies in the slot it was meant for, and in no other.**
* `Axis.exists_holds_iff` — two slots share a point iff they are at most one apart.
* `Side.slot_cell_prod`, `Side.slot_cell_alternate` — **halving slots some number of times leads to
  slots of one width.**
-/

/-- Cells `σ` of points `P`, with the children `ι` that a cell splits into. -/
structure Subdivision (σ P ι : Type*) where
  Mem : P → σ → Prop
  choose : σ → P → ι
  child : σ → ι → σ
  mem_child : ∀ s p i, Mem p (child s i) ↔ Mem p s ∧ choose s p = i

namespace Subdivision

variable {σ τ P Q ι κ : Type*} (S : Subdivision σ P ι) (T : Subdivision τ Q κ)

/-- The children that a point chooses on its way down from a cell. -/
def path (s : σ) (p : P) : ℕ → List ι
  | 0 => []
  | n + 1 => S.choose s p :: path (S.child s (S.choose s p)) p n

/-- The cell that a path leads to. -/
def cell (s : σ) (l : List ι) : σ := l.foldl S.child s

@[simp] theorem path_zero (s : σ) (p : P) : S.path s p 0 = [] := rfl

theorem path_succ (s : σ) (p : P) (n : ℕ) :
    S.path s p (n + 1) = S.choose s p :: S.path (S.child s (S.choose s p)) p n := rfl

@[simp] theorem cell_nil (s : σ) : S.cell s [] = s := rfl

@[simp] theorem cell_cons (s : σ) (i : ι) (l : List ι) :
    S.cell s (i :: l) = S.cell (S.child s i) l := rfl

theorem cell_append (s : σ) (l l' : List ι) : S.cell s (l ++ l') = S.cell (S.cell s l) l' :=
  List.foldl_append

@[simp] theorem length_path (s : σ) (p : P) (n : ℕ) : (S.path s p n).length = n := by
  induction n generalizing s with
  | zero => rfl
  | succ n ih => rw [path_succ, List.length_cons, ih]

/-- A path goes on from the cell that its beginning leads to. -/
theorem path_add (s : σ) (p : P) (m n : ℕ) :
    S.path s p (m + n) = S.path s p m ++ S.path (S.cell s (S.path s p m)) p n := by
  induction m generalizing s with
  | zero => simp
  | succ m ih =>
    rw [Nat.add_right_comm, path_succ, ih, path_succ]
    rfl

theorem path_succ_last (s : σ) (p : P) (n : ℕ) :
    S.path s p (n + 1) = S.path s p n ++ [S.choose (S.cell s (S.path s p n)) p] :=
  S.path_add s p n 1

/-- **A shorter path of a point is a prefix of a longer one.** -/
theorem path_isPrefix (s : σ) (p : P) {m n : ℕ} (h : m ≤ n) : S.path s p m <+: S.path s p n := by
  obtain ⟨k, rfl⟩ := Nat.exists_eq_add_of_le h
  exact ⟨_, (S.path_add s p m k).symm⟩

/-- **A point lies in the cell of a path iff it lies in the root and the path is its own.** -/
theorem mem_cell (s : σ) (p : P) (l : List ι) :
    S.Mem p (S.cell s l) ↔ S.Mem p s ∧ S.path s p l.length = l := by
  induction l generalizing s with
  | nil => simp
  | cons i l ih =>
    rw [cell_cons, ih, S.mem_child, List.length_cons, path_succ, and_assoc]
    refine and_congr_right fun _ => ?_
    constructor
    · rintro ⟨rfl, h⟩
      rw [h]
    · intro h
      obtain ⟨hi, hl⟩ := List.cons.inj h
      subst hi
      exact ⟨rfl, hl⟩

/-! ### Several coordinates -/

/-- Both coordinates are split at once. -/
def prod : Subdivision (σ × τ) (P × Q) (ι × κ) where
  Mem p s := S.Mem p.1 s.1 ∧ T.Mem p.2 s.2
  choose s p := (S.choose s.1 p.1, T.choose s.2 p.2)
  child s i := (S.child s.1 i.1, T.child s.2 i.2)
  mem_child s p i := by
    rw [S.mem_child, T.mem_child, Prod.ext_iff]
    exact and_and_and_comm

/-- The coordinates are split in turn, the flag telling whether it is the first one's. -/
def alternate (T : Subdivision τ Q ι) : Subdivision (Bool × σ × τ) (P × Q) ι where
  Mem p s := S.Mem p.1 s.2.1 ∧ T.Mem p.2 s.2.2
  choose s p := if s.1 then S.choose s.2.1 p.1 else T.choose s.2.2 p.2
  child s i := (!s.1, if s.1 then (S.child s.2.1 i, s.2.2) else (s.2.1, T.child s.2.2 i))
  mem_child s p i := by
    cases h : s.1 with
    | true => simp only [if_true, S.mem_child]; exact and_right_comm
    | false => simp only [Bool.false_eq_true, if_false, T.mem_child, and_assoc]

end Subdivision

/-! ### Halving an interval -/

/-- An interval below a top. -/
structure Side {K : Type*} [LinearOrder K] (top : K) where
  lo : K
  hi : K
  lo_lt : lo < hi
  hi_le : hi ≤ top

namespace Side

variable {K : Type*} [Field K] [LinearOrder K] [IsStrictOrderedRing K] {top : K}

/-- The middle of a side. -/
def mid (s : Side top) : K := (s.lo + s.hi) / 2

theorem lo_lt_mid (s : Side top) : s.lo < s.mid := left_lt_add_div_two.mpr s.lo_lt

theorem mid_lt_hi (s : Side top) : s.mid < s.hi := add_div_two_lt_right.mpr s.lo_lt

/-- The upper half or the lower one. -/
def half (s : Side top) (upper : Bool) : Side top :=
  if upper then ⟨s.mid, s.hi, s.mid_lt_hi, s.hi_le⟩
  else ⟨s.lo, s.mid, s.lo_lt_mid, s.mid_lt_hi.le.trans s.hi_le⟩

/-- Whether a point lies in an interval, its upper end excluded unless it is the top. -/
def Mem (x : K) (s : Side top) : Prop := s.lo ≤ x ∧ (x < s.hi ∨ s.hi = top ∧ x = top)

theorem mem_half (s : Side top) (x : K) (upper : Bool) :
    Mem x (s.half upper) ↔ Mem x s ∧ decide (s.mid ≤ x) = upper := by
  have hlo := s.lo_lt_mid
  have hhi := s.mid_lt_hi
  cases upper with
  | true =>
    simp only [Mem, half, if_true, decide_eq_true_iff]
    exact ⟨fun h => ⟨⟨hlo.le.trans h.1, h.2⟩, h.1⟩, fun h => ⟨h.2, h.1.2⟩⟩
  | false =>
    -- The middle is below the top, so the lower half is half-open.
    have hne : s.mid ≠ top := (hhi.trans_le s.hi_le).ne
    simp only [Mem, half, Bool.false_eq_true, if_false, hne, false_and, or_false,
      decide_eq_false_iff_not, not_le]
    exact ⟨fun h => ⟨⟨h.1, Or.inl (h.2.trans hhi)⟩, h.2⟩, fun h => ⟨h.1.1, h.2⟩⟩

/-- The halving of intervals: a point from the middle on chooses the upper half. -/
def bisection (top : K) : Subdivision (Side top) K Bool where
  Mem := Mem
  choose s x := decide (s.mid ≤ x)
  child := half
  mem_child := mem_half

end Side

/-! ### Slots of an axis -/

/-- An axis cut into slots of one width. -/
structure Axis (K : Type*) [Field K] [LinearOrder K] where
  origin : K
  width : K
  width_pos : 0 < width

namespace Axis

variable {K : Type*} [Field K] [LinearOrder K] [IsStrictOrderedRing K] (axis : Axis K)

/-- Where a slot begins. -/
def lo (i : ℤ) : K := axis.origin + i * axis.width

/-- Whether a point lies in a slot, its ends included. -/
def Holds (x : K) (i : ℤ) : Prop := axis.lo i ≤ x ∧ x ≤ axis.lo (i + 1)

/-- The middle of a slot, or the point a quarter of a slot past one of its ends. -/
def probe (i d : ℤ) : K := axis.lo i + (1 / 2 + 3 / 4 * d) * axis.width

/-- Slots are compared as their numbers are. -/
theorem lo_le_lo_iff {i j : ℤ} : axis.lo i ≤ axis.lo j ↔ i ≤ j := by
  rw [lo, lo, add_le_add_iff_left, mul_le_mul_iff_of_pos_right axis.width_pos, Int.cast_le]

/-- A point some slots after the origin lies before a slot if that slot's number is larger. -/
theorem origin_add_le_lo_iff {t : K} {j : ℤ} : axis.origin + t * axis.width ≤ axis.lo j ↔ t ≤ j := by
  rw [lo, add_le_add_iff_left, mul_le_mul_iff_of_pos_right axis.width_pos]

theorem lo_le_origin_add_iff {t : K} {j : ℤ} : axis.lo j ≤ axis.origin + t * axis.width ↔ j ≤ t := by
  rw [lo, add_le_add_iff_left, mul_le_mul_iff_of_pos_right axis.width_pos]

omit [IsStrictOrderedRing K] in
theorem probe_eq (i d : ℤ) :
    axis.probe i d = axis.origin + (i + (1 / 2 + 3 / 4 * d)) * axis.width := by
  rw [probe, lo, add_mul (i : K), add_assoc]

omit [IsStrictOrderedRing K] in
theorem lo_add_one (i : ℤ) : axis.lo (i + 1) = axis.lo i + axis.width := by
  rw [lo, lo, Int.cast_add, Int.cast_one, add_one_mul, add_assoc]

/-- Halfway between the ends of a slot. -/
theorem probe_zero (i : ℤ) : 1 / 2 * (axis.lo i + axis.lo (i + 1)) = axis.probe i 0 := by
  rw [probe, lo_add_one]
  push_cast
  ring

/-- A quarter of a slot past its end. -/
theorem probe_one (i : ℤ) :
    axis.lo (i + 1) + (axis.lo (i + 1) - axis.lo i) * (1 / 4) = axis.probe i 1 := by
  rw [probe, lo_add_one]
  push_cast
  ring

/-- A quarter of a slot before its beginning. -/
theorem probe_neg_one (i : ℤ) :
    axis.lo i - (axis.lo (i + 1) - axis.lo i) * (1 / 4) = axis.probe i (-1) := by
  rw [probe, lo_add_one]
  push_cast
  ring

/-- **A probe lies in the slot it was meant for, and in no other.** -/
theorem holds_probe_iff {i j d : ℤ} (hd : -1 ≤ d ∧ d ≤ 1) :
    axis.Holds (axis.probe i d) j ↔ j = i + d := by
  rw [Holds, probe_eq, lo_le_origin_add_iff, origin_add_le_lo_iff]
  have hcases : d = -1 ∨ d = 0 ∨ d = 1 := by omega
  constructor
  · rintro ⟨hlo, hhi⟩
    -- Cleared of fractions, the two bounds are about integers.
    have hlo' : ((4 * j : ℤ) : K) ≤ ((4 * i + 2 + 3 * d : ℤ) : K) := by
      push_cast
      linarith
    have hhi' : ((4 * i + 2 + 3 * d : ℤ) : K) ≤ ((4 * (j + 1) : ℤ) : K) := by
      push_cast at hhi ⊢
      linarith
    rw [Int.cast_le] at hlo' hhi'
    omega
  · rintro rfl
    obtain rfl | rfl | rfl := hcases <;> push_cast <;> constructor <;> linarith

/-- Two slots share a point iff they are at most one apart. -/
theorem exists_holds_iff {i j : ℤ} :
    (∃ x, axis.Holds x i ∧ axis.Holds x j) ↔ -1 ≤ j - i ∧ j - i ≤ 1 := by
  constructor
  · rintro ⟨x, ⟨hli, hui⟩, hlj, huj⟩
    have hij := axis.lo_le_lo_iff.mp (hli.trans huj)
    have hji := axis.lo_le_lo_iff.mp (hlj.trans hui)
    omega
  · intro h
    -- The later slot's beginning is a point of both.
    refine ⟨axis.lo (max i j), ⟨?_, ?_⟩, ?_, ?_⟩ <;> rw [lo_le_lo_iff] <;> omega

/-- The axis with twice the slots. -/
def halve : Axis K := ⟨axis.origin, axis.width / 2, half_pos axis.width_pos⟩

theorem halve_lo (i : ℤ) : axis.halve.lo (2 * i) = axis.lo i := by
  simp only [lo, halve]
  push_cast
  ring

end Axis

/-! ### Intervals that are slots -/

namespace Side

variable {K : Type*} [Field K] [LinearOrder K] [IsStrictOrderedRing K] {top topX topY : K}

/-- Whether an interval is a slot of an axis. -/
def Slot (axis : Axis K) (s : Side top) : Prop := ∃ i, s.lo = axis.lo i ∧ s.hi = axis.lo (i + 1)

/-- The halves of a slot are slots of the halved axis. -/
theorem Slot.half {axis : Axis K} {s : Side top} (h : s.Slot axis) (upper : Bool) :
    (s.half upper).Slot axis.halve := by
  obtain ⟨i, hlo, hhi⟩ := h
  have hmid : s.mid = axis.halve.lo (2 * i + 1) := by
    rw [mid, hlo, hhi]
    simp only [Axis.lo, Axis.halve]
    push_cast
    ring
  cases upper with
  | true =>
    refine ⟨2 * i + 1, hmid, ?_⟩
    rw [add_assoc, one_add_one_eq_two, ← mul_add_one, Axis.halve_lo]
    exact hhi
  | false => exact ⟨2 * i, hlo.trans (axis.halve_lo i).symm, hmid⟩

/-- **Halving two slots at once leads to slots of one width.** -/
theorem slot_cell_prod (l : List (Bool × Bool)) {x y : Axis K} (s : Side topX × Side topY)
    (hx : s.1.Slot x) (hy : s.2.Slot y) :
    (((bisection topX).prod (bisection topY)).cell s l).1.Slot (Axis.halve^[l.length] x)
      ∧ (((bisection topX).prod (bisection topY)).cell s l).2.Slot (Axis.halve^[l.length] y) := by
  induction l generalizing s x y with
  | nil => exact ⟨hx, hy⟩
  | cons b l ih =>
    rw [Subdivision.cell_cons, List.length_cons, Function.iterate_succ_apply,
      Function.iterate_succ_apply]
    exact ih _ (hx.half b.1) (hy.half b.2)

/-- **Halving two slots in turn leads to slots of one width**, one side being halved once more than
the other if the number of turns is odd. -/
theorem slot_cell_alternate (l : List Bool) {x y : Axis K} (s : Bool × Side topX × Side topY)
    (hx : s.2.1.Slot x) (hy : s.2.2.Slot y) :
    (((bisection topX).alternate (bisection topY)).cell s l).2.1.Slot
        (Axis.halve^[(l.length + s.1.toNat) / 2] x)
      ∧ (((bisection topX).alternate (bisection topY)).cell s l).2.2.Slot
        (Axis.halve^[(l.length + (!s.1).toNat) / 2] y) := by
  induction l generalizing s x y with
  | nil =>
    have hzero : ∀ even : Bool, (([] : List Bool).length + even.toNat) / 2 = 0 := by decide
    rw [hzero, hzero]
    exact ⟨hx, hy⟩
  | cons b l ih =>
    obtain ⟨even, sx, sy⟩ := s
    rw [Subdivision.cell_cons, List.length_cons]
    cases even with
    | true =>
      have hcount : (l.length + 1 + true.toNat) / 2 = (l.length + false.toNat) / 2 + 1 :=
        Nat.add_div_right _ Nat.two_pos
      rw [hcount, Function.iterate_succ_apply]
      exact ih (false, sx.half b, sy) (hx.half b) hy
    | false =>
      have hcount : (l.length + 1 + (!false).toNat) / 2 = (l.length + (!true).toNat) / 2 + 1 :=
        Nat.add_div_right _ Nat.two_pos
      rw [hcount, Function.iterate_succ_apply]
      exact ih (true, sx, sy.half b) hx (hy.half b)

end Side
