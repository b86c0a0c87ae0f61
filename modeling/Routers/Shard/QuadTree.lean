import Routers.Shard.Geohash
import Mathlib.Data.List.Induction

/-!
# Quad-trees

A quad key holds two bits a level, the first level's lowest: whether the eastern and whether
the northern half of the cell was taken.

## Main definitions

* `QuadKey`, `QuadTreeStrategy` — the identifiers and the strategy.
* `QuadTreeStrategy.locate`, `QuadTreeStrategy.bounds` — the encoding and the decoding.
* `QuadKey.children` — the children that a key was built from.
* `QuadKey.pack` — the bits of a list of children.

## Main results

* `QuadKey.childAt_pack` — **what has been packed is read back.**
* `QuadTreeStrategy.partitions` — **the cells of a depth partition the world.**
* `QuadTreeStrategy.children_isPrefix` — a coarser key is a prefix of a finer one.
* `strategies_hierarchy` — **both strategies partition the world at every level.**

## References

`src/libs/routers_shard/src/strategy/quadtree.rs`.
-/

namespace Routers

/-- The depth that the bits of a key have room for. -/
def maxDepth : ℕ := 31

/-- A path from the root of a quad-tree to a cell. -/
structure QuadKey where
  depth : ℕ
  bits : BitVec 64
  deriving DecidableEq, Repr

/-- Quad-trees of some depth. -/
structure QuadTreeStrategy where
  depth : ℕ
  le_max : depth ≤ maxDepth

namespace QuadKey

/-- The quadrant taken at a level. -/
def childAt (key : QuadKey) (level : ℕ) : BitVec 8 :=
  ((key.bits >>> (2 * level)) &&& 0b11#64).setWidth 8

/-- The children of a key, each by whether it is an eastern and whether it is a northern one. -/
def children (key : QuadKey) : List (Bool × Bool) :=
  (List.range key.depth).map fun level =>
    (key.childAt level &&& 0b01#8 != 0, key.childAt level &&& 0b10#8 != 0)

/-- The number of a child. -/
def code (child : Bool × Bool) : BitVec 64 :=
  (BitVec.ofBool child.2).setWidth 64 <<< 1 ||| (BitVec.ofBool child.1).setWidth 64

/-- The bits of a list of children. -/
def pack (l : List (Bool × Bool)) : BitVec 64 :=
  l.zipIdx.foldl (fun bits child => bits ||| code child.1 <<< (2 * child.2)) 0

theorem pack_append_singleton (l : List (Bool × Bool)) (child : Bool × Bool) :
    pack (l ++ [child]) = pack l ||| code child <<< (2 * l.length) := by
  simp [pack, List.zipIdx_append]

theorem getLsbD_code (child : Bool × Bool) (j : ℕ) :
    (code child).getLsbD j = if j = 0 then child.1 else if j = 1 then child.2 else false := by
  match j with
  | 0 => simp [code]
  | 1 => simp [code]
  | j + 2 => simp [code]

/-- The bits of a level are those of its child. -/
theorem getLsbD_pack (l : List (Bool × Bool)) (hl : l.length ≤ 32) (j : ℕ) :
    (pack l).getLsbD j = if j % 2 = 0 then (l[j / 2]?.getD (false, false)).1
      else (l[j / 2]?.getD (false, false)).2 := by
  induction l using List.reverseRecOn with
  | nil => simp [pack]
  | append_singleton l child ih =>
    rw [List.length_append, List.length_singleton] at hl
    rw [pack_append_singleton, BitVec.getLsbD_or, ih (by omega), BitVec.getLsbD_shiftLeft,
      getLsbD_code]
    obtain hlt | heq | hgt := lt_trichotomy (j / 2) l.length
    · have hj : j < 2 * l.length := by omega
      rw [List.getElem?_append_left hlt]
      simp [hj]
    · have hnone : l[j / 2]? = none := List.getElem?_eq_none heq.ge
      have hsome : (l ++ [child])[j / 2]? = some child := by simp [heq]
      have hj : j < 64 := by omega
      have hge : ¬ j < 2 * l.length := by omega
      obtain heven | hodd := Nat.mod_two_eq_zero_or_one j
      · have hbit : j - 2 * l.length = 0 := by omega
        simp [hnone, hsome, hj, hge, heven, hbit]
      · have hbit : j - 2 * l.length = 1 := by omega
        simp [hnone, hsome, hj, hge, hodd, hbit]
    · -- Past the last level both sides are clear.
      have hnone : l[j / 2]? = none := List.getElem?_eq_none hgt.le
      have hnone' : (l ++ [child])[j / 2]? = none := List.getElem?_eq_none (by simp; omega)
      have hbit0 : j - 2 * l.length ≠ 0 := by omega
      have hbit1 : j - 2 * l.length ≠ 1 := by omega
      simp [hnone, hnone', hbit0, hbit1]

/-- A bit of a quadrant is a bit of the key. -/
theorem getLsbD_childAt (key : QuadKey) (level : ℕ) {i : ℕ} (h : i < 2) :
    (key.childAt level).getLsbD i = key.bits.getLsbD (2 * level + i) := by
  have hi : i = 0 ∨ i = 1 := by omega
  obtain rfl | rfl := hi <;> simp [childAt]

/-- The bits of a quadrant as the decoding loop tests them. -/
theorem and_ne_zero (q : BitVec 8) :
    (q &&& 0b01#8 != 0) = q.getLsbD 0 ∧ (q &&& 0b10#8 != 0) = q.getLsbD 1 := by
  revert q
  decide +kernel

/-- **What has been packed is read back.** -/
theorem children_pack (l : List (Bool × Bool)) (hl : l.length ≤ 32) :
    children ⟨l.length, pack l⟩ = l := by
  apply List.ext_getElem
  · simp [children]
  · intro level _ hlevel
    simp only [children, List.getElem_map, List.getElem_range, (and_ne_zero _).1, (and_ne_zero _).2,
      getLsbD_childAt _ _ Nat.zero_lt_two, getLsbD_childAt _ _ Nat.one_lt_two, getLsbD_pack l hl]
    have hdiv : (2 * level + 1) / 2 = level := by omega
    simp [hdiv, hlevel]

end QuadKey

open QuadKey

namespace QuadTreeStrategy

variable (strategy : QuadTreeStrategy)

/-- One level of the encoding loop, the four sides of the cell as a rectangle. -/
def descend (px py : ℚ) (s : Rect × BitVec 64) (level : ℕ) : Rect × BitVec 64 :=
  let (rect, bits) := s
  let midX := 1 / 2 * (rect.min.x + rect.max.x)
  let midY := 1 / 2 * (rect.min.y + rect.max.y)
  let east := decide (px ≥ midX)
  let north := decide (py ≥ midY)
  let q := (BitVec.ofBool north).setWidth 64 <<< 1 ||| (BitVec.ofBool east).setWidth 64
  ((rect.narrow true east).narrow false north, bits ||| q <<< (2 * level))

/-- The cell of a point: the world is quartered down to the depth. -/
def locate (point : Point) : QuadKey :=
  let px := clampTo point.x world.min.x world.max.x
  let py := clampTo point.y world.min.y world.max.y
  let (_, bits) := (List.range strategy.depth).foldl (descend px py) (world, 0)
  ⟨strategy.depth, bits⟩

/-- The box of a cell, by its quarters. -/
def bounds (id : QuadKey) : Rect :=
  (List.range id.depth).foldl (fun rect level =>
    let q := id.childAt level
    (rect.narrow true (q &&& 0b01#8 != 0)).narrow false (q &&& 0b10#8 != 0)) world

/-- The cells around a cell. -/
def neighbours (id : QuadKey) : List QuadKey := probeNeighbours strategy.locate bounds id

/-- Quad keys as a sharding strategy. -/
def toStrategy : ShardingStrategy QuadKey := ⟨strategy.locate, bounds, strategy.neighbours⟩

/-! ### The cell of a key -/

/-- Halving the world across both of its sides at once. -/
abbrev quartering : Subdivision Box (ℚ × ℚ) (Bool × Bool) :=
  (Side.bisection world.max.x).prod (Side.bisection world.max.y)

theorem toRect_child (s : Box) (child : Bool × Bool) :
    (quartering.child s child).toRect = (s.toRect.narrow true child.1).narrow false child.2 := by
  rw [← Box.toRect_half_fst, ← Box.toRect_half_snd]
  rfl

/-- Narrowing by some children leads to their cell. -/
theorem foldl_narrow (l : List (Bool × Bool)) (s : Box) :
    l.foldl (fun rect child => (rect.narrow true child.1).narrow false child.2) s.toRect
      = (quartering.cell s l).toRect := by
  induction l generalizing s with
  | nil => rfl
  | cons child l ih => rw [List.foldl_cons, ← toRect_child, ih, Subdivision.cell_cons]

/-- A level chooses the child that the point lies in. -/
theorem descend_eq (px py : ℚ) (s : Box) (bits : BitVec 64) (level : ℕ) :
    descend px py (s.toRect, bits) level
      = ((quartering.child s (quartering.choose s (px, py))).toRect,
        bits ||| code (quartering.choose s (px, py)) <<< (2 * level)) := by
  have hchoose : quartering.choose s (px, py)
      = (decide (px ≥ 1 / 2 * (s.toRect.min.x + s.toRect.max.x)),
        decide (py ≥ 1 / 2 * (s.toRect.min.y + s.toRect.max.y))) := by
    simp only [Box.toRect, one_div, inv_mul_eq_div, ge_iff_le]
    rfl
  rw [toRect_child, hchoose]
  rfl

/-- **The loop packs the path of the point.** -/
theorem foldl_descend (px py : ℚ) (n : ℕ) :
    (List.range n).foldl (descend px py) (world, 0)
      = ((quartering.cell Box.root (quartering.path Box.root (px, py) n)).toRect,
        pack (quartering.path Box.root (px, py) n)) := by
  induction n with
  | zero => rfl
  | succ n ih =>
    rw [List.range_succ, List.foldl_append, ih, List.foldl_cons, List.foldl_nil, descend_eq,
      Subdivision.path_succ_last, pack_append_singleton, Subdivision.length_path,
      Subdivision.cell_append]
    rfl

/-- The path of a point, a child a level. -/
def path (point : Point) : List (Bool × Bool) :=
  quartering.path Box.root (point.clamp.x, point.clamp.y) strategy.depth

@[simp] theorem length_path (point : Point) : (strategy.path point).length = strategy.depth :=
  quartering.length_path _ _ _

/-- The key that is packed from a path. -/
def encode (l : List (Bool × Bool)) : QuadKey := ⟨l.length, pack l⟩

theorem locate_eq (point : Point) : strategy.locate point = encode (strategy.path point) := by
  have h := foldl_descend point.clamp.x point.clamp.y strategy.depth
  simp only [Point.clamp] at h
  rw [locate, h, encode, length_path]
  rfl

/-- Decoding narrows the world by the children of a key. -/
theorem bounds_eq (id : QuadKey) : bounds id = (quartering.cell Box.root id.children).toRect := by
  rw [← foldl_narrow, children, List.foldl_map]
  rfl

/-- **The cells of a depth partition the world.** -/
theorem partitions : strategy.toStrategy.Partitions := by
  have hle : strategy.depth ≤ 32 := strategy.le_max.trans (by decide)
  refine .of_subdivision quartering Box.root Box.toRect strategy.depth encode
    (fun s p => Iff.rfl) rfl strategy.locate_eq ?_ ?_
  · intro l hl
    have h := bounds_eq (encode l)
    rwa [encode, children_pack l (hl.trans_le hle)] at h
  · intro l l' hl hl' h
    rw [← children_pack l (hl.trans_le hle), ← children_pack l' (hl'.trans_le hle)]
    exact congrArg children h

theorem children_locate (point : Point) : (strategy.locate point).children = strategy.path point := by
  have hlen := strategy.length_path point
  rw [locate_eq, encode, children_pack _ (hlen.trans_le (strategy.le_max.trans (by decide)))]

/-- **A coarser key of a point is a prefix of a finer one.** -/
theorem children_isPrefix (finer : QuadTreeStrategy) (h : strategy.depth ≤ finer.depth)
    (point : Point) : (strategy.locate point).children <+: (finer.locate point).children := by
  rw [children_locate, children_locate]
  exact quartering.path_isPrefix Box.root _ h

end QuadTreeStrategy

/-- **Locating and bounding a cell are inverse, and the cells of a finer level lie within those of a
coarser one**, for both strategies. -/
theorem strategies_hierarchy :
    Hierarchy GeohashStrategy.precision GeohashStrategy.toStrategy Geohash.chars
      ∧ Hierarchy QuadTreeStrategy.depth QuadTreeStrategy.toStrategy QuadKey.children := by
  constructor
  · exact ⟨fun s => s.partitions, fun s point => s.length_chars point,
      fun s finer h point => s.chars_isPrefix finer h point⟩
  · refine ⟨fun s => s.partitions, fun s point => ?_,
      fun s finer h point => s.children_isPrefix finer h point⟩
    exact (congrArg List.length (s.children_locate point)).trans (s.length_path point)

end Routers
