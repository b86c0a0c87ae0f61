import Routers.Shard.Network
import Routers.Library.Subdivision
import Mathlib.Algebra.Order.Ring.Rat
import Mathlib.Algebra.Field.Rat

/-!
# Sharding strategies

A strategy partitions the world if a cell is located exactly for the points it owns.  Both
strategies get there by halving the world, so what one of them has to show is that its
identifiers spell out the path of a subdivision.

## Main definitions

* `world`, `Point.clamp` — the rectangle that is partitioned, and points moved into it.
* `Rect.Owns` — half-open on the max sides, except on the world's own edges.
* `ShardingStrategy.Partitions` — locating and bounding a cell are inverse.
* `Hierarchy` — strategies by level, the cells of a finer one within those of a coarser one.
* `Rect.narrow` — half of a rectangle, across its longitudes or its latitudes.
* `probeNeighbours` — the cells around a cell, by points just past its sides.

## Main results

* `Partitions.of_subdivision` — **identifiers that spell out paths partition the world.**

## References

`src/libs/routers_shard/src/strategy/mod.rs`.
-/

namespace Routers

/-- The rectangle that the strategies partition. -/
def world : Rect := ⟨⟨-180, -90⟩, ⟨180, 90⟩⟩

/-- Move a coordinate into a range. -/
def clampTo (x lo hi : ℚ) : ℚ := if x < lo then lo else if hi < x then hi else x

/-- Move a point into the world. -/
def Point.clamp (point : Point) : Point :=
  ⟨clampTo point.x world.min.x world.max.x, clampTo point.y world.min.y world.max.y⟩

/-- Whether a point lies in a rectangle, taken half-open on its max sides except where they lie
on the world's own. -/
def Rect.Owns (rect : Rect) (point : Point) : Prop :=
  (rect.min.x ≤ point.x ∧ (point.x < rect.max.x ∨ rect.max.x = world.max.x ∧ point.x = world.max.x))
    ∧ (rect.min.y ≤ point.y
      ∧ (point.y < rect.max.y ∨ rect.max.y = world.max.y ∧ point.y = world.max.y))

theorem clampTo_mem (x : ℚ) {lo hi : ℚ} (h : lo ≤ hi) :
    lo ≤ clampTo x lo hi ∧ clampTo x lo hi ≤ hi := by
  unfold clampTo
  split
  · exact ⟨le_rfl, h⟩
  split
  · exact ⟨h, le_rfl⟩
  · exact ⟨not_lt.mp ‹_›, not_lt.mp ‹_›⟩

theorem clampTo_of_mem {x lo hi : ℚ} (hlo : lo ≤ x) (hhi : x ≤ hi) : clampTo x lo hi = x := by
  rw [clampTo, if_neg hlo.not_gt, if_neg hhi.not_gt]

/-- The world owns what lies in it, its own edges included. -/
theorem world_owns_iff (p : Point) : world.Owns p ↔ world.contains p = true := by
  simp only [Rect.Owns, Rect.contains, true_and, ← le_iff_lt_or_eq, Bool.and_eq_true,
    decide_eq_true_iff, and_assoc]

theorem world_owns_clamp (p : Point) : world.Owns p.clamp := by
  have hx := clampTo_mem p.x (show world.min.x ≤ world.max.x by decide)
  have hy := clampTo_mem p.y (show world.min.y ≤ world.max.y by decide)
  rw [world_owns_iff]
  simp [Rect.contains, Point.clamp, hx, hy]

/-- A point of the world is left where it is. -/
theorem clamp_of_owns {p : Point} (h : world.Owns p) : p.clamp = p := by
  simp only [world_owns_iff, Rect.contains, Bool.and_eq_true, decide_eq_true_iff] at h
  rw [Point.clamp, clampTo_of_mem h.1.1.1 h.1.1.2, clampTo_of_mem h.1.2 h.2]

/-- A cell is located exactly for the points it owns; distinct cells share no point, and together
they cover the world. -/
structure ShardingStrategy.Partitions {S : Type} (strategy : ShardingStrategy S) : Prop where
  locate_iff : ∀ p q : Point, strategy.locate p = strategy.locate q ↔
    (strategy.bounds (strategy.locate q)).Owns p.clamp
  disjoint : ∀ p q point : Point, strategy.locate p ≠ strategy.locate q →
    (strategy.bounds (strategy.locate p)).Owns point →
    ¬ (strategy.bounds (strategy.locate q)).Owns point
  covers : ∀ point : Point, world.contains point = true →
    ∃ p, (strategy.bounds (strategy.locate p)).Owns point

/-- A family of strategies by level, each of which partitions the world, where what the identifiers
spell out, `digits`, grows with the level. -/
structure Hierarchy {T S ι : Type} (level : T → ℕ) (strategy : T → ShardingStrategy S)
    (digits : S → List ι) : Prop where
  partitions : ∀ t, (strategy t).Partitions
  length : ∀ t point, (digits ((strategy t).locate point)).length = level t
  nested : ∀ t finer, level t ≤ level finer → ∀ point,
    digits ((strategy t).locate point) <+: digits ((strategy finer).locate point)

/-! ### Halving the world -/

/-- The half of a rectangle across its longitudes, or across its latitudes. -/
def Rect.narrow (rect : Rect) (even upper : Bool) : Rect :=
  if even then
    let mid := 1 / 2 * (rect.min.x + rect.max.x)
    if upper then ⟨⟨mid, rect.min.y⟩, rect.max⟩ else ⟨rect.min, ⟨mid, rect.max.y⟩⟩
  else
    let mid := 1 / 2 * (rect.min.y + rect.max.y)
    if upper then ⟨⟨rect.min.x, mid⟩, rect.max⟩ else ⟨rect.min, ⟨rect.max.x, mid⟩⟩

/-- A cell of the world, by its longitudes and its latitudes. -/
abbrev Box := Side world.max.x × Side world.max.y

namespace Box

/-- The rectangle of a box. -/
def toRect (s : Box) : Rect := ⟨⟨s.1.lo, s.2.lo⟩, ⟨s.1.hi, s.2.hi⟩⟩

/-- The whole world. -/
def root : Box :=
  (⟨world.min.x, world.max.x, by decide, le_rfl⟩, ⟨world.min.y, world.max.y, by decide, le_rfl⟩)

theorem toRect_half_fst (s : Box) (upper : Bool) :
    toRect (s.1.half upper, s.2) = (toRect s).narrow true upper := by
  have hmid : s.1.mid = 1 / 2 * (s.1.lo + s.1.hi) := by rw [Side.mid, div_eq_inv_mul, one_div]
  cases upper <;> simp [toRect, Rect.narrow, Side.half, hmid]

theorem toRect_half_snd (s : Box) (upper : Bool) :
    toRect (s.1, s.2.half upper) = (toRect s).narrow false upper := by
  have hmid : s.2.mid = 1 / 2 * (s.2.lo + s.2.hi) := by rw [Side.mid, div_eq_inv_mul, one_div]
  cases upper <;> simp [toRect, Rect.narrow, Side.half, hmid]

end Box

namespace ShardingStrategy.Partitions

variable {S σ ι : Type} {strategy : ShardingStrategy S} (T : Subdivision σ (ℚ × ℚ) ι) (root : σ)
  (rect : σ → Rect) (n : ℕ) (encode : List ι → S)

/-- **Identifiers that spell out the paths of a subdivision partition the world**, if the cells of
the subdivision hold the points that their rectangles own. -/
theorem of_subdivision (hmem : ∀ s p, T.Mem (p.x, p.y) s ↔ (rect s).Owns p)
    (hroot : rect root = world)
    (hlocate : ∀ p, strategy.locate p = encode (T.path root (p.clamp.x, p.clamp.y) n))
    (hbounds : ∀ l, l.length = n → strategy.bounds (encode l) = rect (T.cell root l))
    (hinj : ∀ l l', l.length = n → l'.length = n → encode l = encode l' → l = l') :
    strategy.Partitions := by
  have hlen : ∀ p, (T.path root p n).length = n := fun p => T.length_path root p n
  -- The points that a located cell owns are those of the world with the path that was located.
  have howns : ∀ p point : Point, (strategy.bounds (strategy.locate p)).Owns point ↔
      world.Owns point ∧
        T.path root (point.x, point.y) n = T.path root (p.clamp.x, p.clamp.y) n := by
    intro p point
    rw [hlocate, hbounds _ (hlen _), ← hmem, T.mem_cell, hmem, hroot, hlen]
  constructor
  · intro p q
    rw [howns, and_iff_right (world_owns_clamp p), hlocate, hlocate]
    exact ⟨hinj _ _ (hlen _) (hlen _), fun h => by rw [h]⟩
  · intro p q point hne hp hq
    apply hne
    rw [hlocate, hlocate, ← ((howns p point).mp hp).2, ((howns q point).mp hq).2]
  · intro point hpoint
    have hworld := (world_owns_iff point).mpr hpoint
    exact ⟨point, (howns point point).mpr ⟨hworld, by rw [clamp_of_owns hworld]⟩⟩

end ShardingStrategy.Partitions

/-! ### Neighbours -/

/-- The cells around a cell, by locating points just past its sides and corners. -/
def probeNeighbours {S : Type} [DecidableEq S] (locate : Point → S) (bounds : S → Rect) (id : S) :
    List S :=
  let rect := bounds id
  let epsX := (rect.max.x - rect.min.x) * (1 / 4)
  let epsY := (rect.max.y - rect.min.y) * (1 / 4)
  let cx := 1 / 2 * (rect.min.x + rect.max.x)
  let cy := 1 / 2 * (rect.min.y + rect.max.y)
  let probes : List Point :=
    [⟨cx, rect.max.y + epsY⟩, ⟨rect.max.x + epsX, rect.max.y + epsY⟩,
      ⟨rect.max.x + epsX, cy⟩, ⟨rect.max.x + epsX, rect.min.y - epsY⟩,
      ⟨cx, rect.min.y - epsY⟩, ⟨rect.min.x - epsX, rect.min.y - epsY⟩,
      ⟨rect.min.x - epsX, cy⟩, ⟨rect.min.x - epsX, rect.max.y + epsY⟩]
  probes.foldl (fun out p =>
    -- Beyond the poles or past the dateline there is no cell.
    if p.x < world.min.x ∨ p.x > world.max.x ∨ p.y < world.min.y ∨ p.y > world.max.y then out
    else
      let n := locate p
      if n ≠ id ∧ n ∉ out then out ++ [n] else out) []

/-- A neighbour is another cell, and none is listed twice. -/
theorem probeNeighbours_spec {S : Type} [DecidableEq S] (locate : Point → S) (bounds : S → Rect)
    (id : S) : id ∉ probeNeighbours locate bounds id ∧ (probeNeighbours locate bounds id).Nodup := by
  unfold probeNeighbours
  refine List.foldlRecOn (motive := fun out : List S => id ∉ out ∧ out.Nodup) _ _
    ⟨List.not_mem_nil, List.nodup_nil⟩ fun out ⟨hid, hnodup⟩ p _ => ?_
  split
  · exact ⟨hid, hnodup⟩
  dsimp only
  split
  · rename_i h
    refine ⟨?_, List.nodup_append.mpr ⟨hnodup, List.nodup_singleton _, ?_⟩⟩
    · simpa using ⟨hid, h.1.symm⟩
    · intro a ha b hb hab
      rw [List.mem_singleton.mp hb] at hab
      exact h.2 (hab ▸ ha)
  · exact ⟨hid, hnodup⟩

end Routers
