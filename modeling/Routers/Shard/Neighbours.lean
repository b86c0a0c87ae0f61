import Routers.Shard.QuadTree

/-!
# Neighbouring cells

The cells of one level are the slots of two axes, so a point a quarter of a cell past a side or a
corner lies in the cell on the other side of it and in no other.  The eight probes then find the
cells that touch a cell, where the world has any.

## Main definitions

* `Rect.Meets` — closed rectangles that share a point.
* `ShardingStrategy.Cell` — the cells of a strategy: what it locates.
* `ShardingStrategy.Grid` — strategies whose cells are slots of two axes, inside the world.
* `ShardingStrategy.ExactNeighbours` — the neighbours of a cell are the other cells that meet it.

## Main results

* `mem_probeNeighbours` — what the probes collect.
* `Grid.mem_probeNeighbours_iff` — **on a grid, the probes find the cells that meet a cell.**
* `strategies_neighbours` — **the neighbours of both strategies are exact and symmetric.**

## References

`src/libs/routers_shard/src/strategy/geohash.rs` and
`src/libs/routers_shard/src/strategy/quadtree.rs`.
-/

namespace Routers

/-- Closed rectangles that share a point, be it of an edge or a corner. -/
def Rect.Meets (a b : Rect) : Prop := ∃ point, a.contains point = true ∧ b.contains point = true

theorem Rect.meets_comm {a b : Rect} : a.Meets b ↔ b.Meets a :=
  exists_congr fun _ => and_comm

theorem Rect.contains_iff {rect : Rect} {point : Point} : rect.contains point = true ↔
    (rect.min.x ≤ point.x ∧ point.x ≤ rect.max.x)
      ∧ (rect.min.y ≤ point.y ∧ point.y ≤ rect.max.y) := by
  simp only [contains, Bool.and_eq_true, decide_eq_true_iff, and_assoc]

/-- What a rectangle owns lies in it. -/
theorem Rect.Owns.contains {rect : Rect} {point : Point} (h : rect.Owns point) :
    rect.contains point = true := by
  obtain ⟨⟨hxlo, hx⟩, hylo, hy⟩ := h
  refine Rect.contains_iff.mpr ⟨⟨hxlo, ?_⟩, hylo, ?_⟩
  · obtain hlt | ⟨heq, hpoint⟩ := hx
    · exact hlt.le
    · rw [heq, hpoint]
  · obtain hlt | ⟨heq, hpoint⟩ := hy
    · exact hlt.le
    · rw [heq, hpoint]

/-! ### What the probes collect -/

/-- The directions of the probes, from the north on, clockwise. -/
def probeOffsets : List (ℤ × ℤ) :=
  [(0, 1), (1, 1), (1, 0), (1, -1), (0, -1), (-1, -1), (-1, 0), (-1, 1)]

theorem mem_probeOffsets_iff {d : ℤ × ℤ} :
    d ∈ probeOffsets ↔ (-1 ≤ d.1 ∧ d.1 ≤ 1) ∧ (-1 ≤ d.2 ∧ d.2 ≤ 1) ∧ d ≠ (0, 0) := by
  obtain ⟨dx, dy⟩ := d
  simp only [probeOffsets, List.mem_cons, Prod.mk.injEq, List.not_mem_nil, or_false, ne_eq]
  omega

/-- Collecting what some probes locate, each once. -/
theorem mem_foldl_probes {S : Type} [DecidableEq S] (locate : Point → S) (id other : S)
    (outside : Point → Prop) [DecidablePred outside] (probes : List Point) (out : List S) :
    other ∈ probes.foldl (fun out p =>
        if outside p then out
        else
          let n := locate p
          if n ≠ id ∧ n ∉ out then out ++ [n] else out) out
      ↔ other ∈ out ∨ other ≠ id ∧ ∃ p ∈ probes, ¬ outside p ∧ locate p = other := by
  induction probes generalizing out with
  | nil => simp
  | cons p probes ih =>
    rw [List.foldl_cons, ih]
    by_cases hout : outside p
    · simp [hout]
    · by_cases hnew : locate p ≠ id ∧ locate p ∉ out
      · simp only [if_neg hout, if_pos hnew, List.mem_append, List.mem_cons]
        grind
      · simp only [if_neg hout, if_neg hnew, List.mem_cons]
        grind

/-- The probes of a cell of a grid. -/
def gridProbe (x y : Axis ℚ) (i j : ℤ) (d : ℤ × ℤ) : Point := ⟨x.probe i d.1, y.probe j d.2⟩

/-- A cell of a grid. -/
def gridRect (x y : Axis ℚ) (i j : ℤ) : Rect := ⟨⟨x.lo i, y.lo j⟩, ⟨x.lo (i + 1), y.lo (j + 1)⟩⟩

/-- **What the probes of a cell of a grid collect.** -/
theorem mem_probeNeighbours {S : Type} [DecidableEq S] (locate : Point → S) (bounds : S → Rect)
    {id other : S} {x y : Axis ℚ} {i j : ℤ} (hid : bounds id = gridRect x y i j) :
    other ∈ probeNeighbours locate bounds id ↔ other ≠ id ∧ ∃ d ∈ probeOffsets,
      world.contains (gridProbe x y i j d) = true ∧ locate (gridProbe x y i j d) = other := by
  have hworld : ∀ p : Point, ¬ (p.x < world.min.x ∨ p.x > world.max.x ∨ p.y < world.min.y
      ∨ p.y > world.max.y) ↔ world.contains p = true := by
    intro p
    simp only [Rect.contains_iff, not_or, not_lt, gt_iff_lt, and_assoc]
  have hprobes := mem_foldl_probes locate id other
    (fun p => p.x < world.min.x ∨ p.x > world.max.x ∨ p.y < world.min.y ∨ p.y > world.max.y)
    (probeOffsets.map (gridProbe x y i j)) []
  simp only [hworld, List.not_mem_nil, false_or, List.mem_map, exists_exists_and_eq_and] at hprobes
  rw [← hprobes, probeNeighbours, hid]
  simp only [gridRect, Axis.probe_zero, Axis.probe_one, Axis.probe_neg_one]
  rfl

/-! ### Cells on a grid -/

theorem gridRect_contains_iff {x y : Axis ℚ} {i j : ℤ} {point : Point} :
    (gridRect x y i j).contains point = true ↔ x.Holds point.x i ∧ y.Holds point.y j :=
  Rect.contains_iff

/-- **A probe lies in one cell of the grid only.** -/
theorem gridRect_contains_probe_iff {x y : Axis ℚ} {i j i' j' : ℤ} {d : ℤ × ℤ}
    (hd : d ∈ probeOffsets) :
    (gridRect x y i' j').contains (gridProbe x y i j d) = true ↔ i' = i + d.1 ∧ j' = j + d.2 := by
  obtain ⟨hdx, hdy, -⟩ := mem_probeOffsets_iff.mp hd
  rw [gridRect_contains_iff]
  exact and_congr (x.holds_probe_iff hdx) (y.holds_probe_iff hdy)

/-- Two cells of a grid meet iff they are at most one apart across and along. -/
theorem gridRect_meets_iff {x y : Axis ℚ} {i j i' j' : ℤ} :
    (gridRect x y i j).Meets (gridRect x y i' j') ↔
      (-1 ≤ i' - i ∧ i' - i ≤ 1) ∧ (-1 ≤ j' - j ∧ j' - j ≤ 1) := by
  rw [← x.exists_holds_iff, ← y.exists_holds_iff]
  simp only [Rect.Meets, gridRect_contains_iff]
  constructor
  · rintro ⟨p, ⟨hx, hy⟩, hx', hy'⟩
    exact ⟨⟨p.x, hx, hx'⟩, p.y, hy, hy'⟩
  · rintro ⟨⟨px, hx, hx'⟩, py, hy, hy'⟩
    exact ⟨⟨px, py⟩, ⟨hx, hy⟩, hx', hy'⟩

namespace ShardingStrategy

variable {S : Type} {strategy : ShardingStrategy S}

/-- The cells of a strategy: what it locates. -/
def Cell (strategy : ShardingStrategy S) (id : S) : Prop := ∃ point, strategy.locate point = id

/-- A cell owns where the points are moved to that it is located for. -/
theorem Partitions.owns (hpart : strategy.Partitions) (p : Point) :
    (strategy.bounds (strategy.locate p)).Owns p.clamp :=
  (hpart.locate_iff p p).mp rfl

/-- Cells are told apart by their bounds. -/
theorem Partitions.bounds_inj (hpart : strategy.Partitions) {a b : S} (ha : strategy.Cell a)
    (hb : strategy.Cell b) (h : strategy.bounds a = strategy.bounds b) : a = b := by
  obtain ⟨p, rfl⟩ := ha
  obtain ⟨q, rfl⟩ := hb
  rw [hpart.locate_iff, ← h]
  exact hpart.owns p

/-- The cells of a strategy are slots of two axes, and lie inside the world. -/
structure Grid (strategy : ShardingStrategy S) (x y : Axis ℚ) : Prop where
  cell : ∀ id, strategy.Cell id → ∃ i j, strategy.bounds id = gridRect x y i j
  inside : ∀ id, strategy.Cell id → ∀ point, (strategy.bounds id).contains point = true →
    world.contains point = true

/-- The neighbours of a cell are the other cells whose closed bounds meet its own, each listed once;
so being a neighbour is symmetric. -/
structure ExactNeighbours (strategy : ShardingStrategy S) : Prop where
  mem_iff : ∀ id other, strategy.Cell id → (other ∈ strategy.neighbours id ↔
    strategy.Cell other ∧ other ≠ id ∧ (strategy.bounds id).Meets (strategy.bounds other))
  not_mem : ∀ id, strategy.Cell id → id ∉ strategy.neighbours id
  nodup : ∀ id, strategy.Cell id → (strategy.neighbours id).Nodup
  symm : ∀ a b, strategy.Cell a → strategy.Cell b →
    (b ∈ strategy.neighbours a ↔ a ∈ strategy.neighbours b)

/-- **The probes find the cells that meet a cell**, if the cells lie on a grid. -/
theorem Grid.mem_probeNeighbours_iff [DecidableEq S] {x y : Axis ℚ} (hgrid : strategy.Grid x y)
    (hpart : strategy.Partitions) {id other : S} (hid : strategy.Cell id) :
    other ∈ probeNeighbours strategy.locate strategy.bounds id ↔
      strategy.Cell other ∧ other ≠ id ∧ (strategy.bounds id).Meets (strategy.bounds other) := by
  obtain ⟨i, j, hbounds⟩ := hgrid.cell id hid
  -- What is located for a probe inside the world is the cell that the probe was meant for.
  have hlocated : ∀ d ∈ probeOffsets, world.contains (gridProbe x y i j d) = true →
      strategy.bounds (strategy.locate (gridProbe x y i j d)) = gridRect x y (i + d.1) (j + d.2) := by
    intro d hd hworld
    obtain ⟨i', j', hcell⟩ := hgrid.cell _ ⟨gridProbe x y i j d, rfl⟩
    have howns := hpart.owns (gridProbe x y i j d)
    rw [clamp_of_owns ((world_owns_iff _).mpr hworld), hcell] at howns
    obtain ⟨rfl, rfl⟩ := (gridRect_contains_probe_iff hd).mp howns.contains
    exact hcell
  rw [mem_probeNeighbours strategy.locate strategy.bounds hbounds]
  constructor
  · rintro ⟨hne, d, hd, hworld, rfl⟩
    refine ⟨⟨_, rfl⟩, hne, ?_⟩
    obtain ⟨hdx, hdy, -⟩ := mem_probeOffsets_iff.mp hd
    rw [hbounds, hlocated d hd hworld, gridRect_meets_iff]
    omega
  · rintro ⟨hother, hne, hmeets⟩
    obtain ⟨i', j', hbounds'⟩ := hgrid.cell other hother
    rw [hbounds, hbounds', gridRect_meets_iff] at hmeets
    have hd : (i' - i, j' - j) ∈ probeOffsets := by
      refine mem_probeOffsets_iff.mpr ⟨hmeets.1, hmeets.2, fun h => hne ?_⟩
      -- A cell at no distance is the cell itself.
      obtain ⟨hi, hj⟩ := Prod.mk.inj h
      apply hpart.bounds_inj hother hid
      rw [hbounds, hbounds', sub_eq_zero.mp hi, sub_eq_zero.mp hj]
    have hprobe : world.contains (gridProbe x y i j (i' - i, j' - j)) = true := by
      apply hgrid.inside other hother
      rw [hbounds', gridRect_contains_probe_iff hd]
      exact ⟨(add_sub_cancel i i').symm, (add_sub_cancel j j').symm⟩
    refine ⟨hne, _, hd, hprobe, hpart.bounds_inj ⟨_, rfl⟩ hother ?_⟩
    rw [hlocated _ hd hprobe, hbounds', add_sub_cancel, add_sub_cancel]

/-- **On a grid, probing for neighbours is exact.** -/
theorem Grid.exactNeighbours [DecidableEq S] {x y : Axis ℚ} (hgrid : strategy.Grid x y)
    (hpart : strategy.Partitions)
    (hprobe : strategy.neighbours = probeNeighbours strategy.locate strategy.bounds) :
    strategy.ExactNeighbours := by
  have hmem : ∀ id other, strategy.Cell id → (other ∈ strategy.neighbours id ↔
      strategy.Cell other ∧ other ≠ id ∧ (strategy.bounds id).Meets (strategy.bounds other)) := by
    intro id other hid
    rw [hprobe]
    exact hgrid.mem_probeNeighbours_iff hpart hid
  refine ⟨hmem, fun id _ => ?_, fun id _ => ?_, fun a b ha hb => ?_⟩
  · rw [hprobe]
    exact (probeNeighbours_spec _ _ id).1
  · rw [hprobe]
    exact (probeNeighbours_spec _ _ id).2
  · rw [hmem a b ha, hmem b a hb, Rect.meets_comm, ne_comm, and_iff_right hb, and_iff_right ha]

end ShardingStrategy

/-! ### The grids of the strategies -/

/-- The world as one cell. -/
def worldX : Axis ℚ := ⟨world.min.x, world.max.x - world.min.x, sub_pos.mpr (by decide)⟩

/-- The axis of latitudes. -/
def worldY : Axis ℚ := ⟨world.min.y, world.max.y - world.min.y, sub_pos.mpr (by decide)⟩

theorem Box.slot_root : Box.root.1.Slot worldX ∧ Box.root.2.Slot worldY := by
  constructor
  · exact ⟨0, by simp [Box.root, worldX, Axis.lo], by simp [Box.root, worldX, Axis.lo]⟩
  · exact ⟨0, by simp [Box.root, worldY, Axis.lo], by simp [Box.root, worldY, Axis.lo]⟩

/-- The rectangle of two slots. -/
theorem Box.toRect_of_slots {s : Box} {x y : Axis ℚ} (hx : s.1.Slot x) (hy : s.2.Slot y) :
    ∃ i j, s.toRect = gridRect x y i j := by
  obtain ⟨i, hxlo, hxhi⟩ := hx
  obtain ⟨j, hylo, hyhi⟩ := hy
  exact ⟨i, j, by rw [Box.toRect, gridRect, hxlo, hxhi, hylo, hyhi]⟩

/-- What the world is divided into lies inside it. -/
theorem Box.world_contains_of_cell {σ ι : Type} (T : Subdivision σ (ℚ × ℚ) ι) (box : σ → Box)
    (hmem : ∀ s p, T.Mem p s ↔ Side.Mem p.1 (box s).1 ∧ Side.Mem p.2 (box s).2) (root : σ)
    (hroot : box root = Box.root) (l : List ι) {point : Point}
    (h : (box (T.cell root l)).toRect.contains point = true) : world.contains point = true := by
  -- The lower corner of a cell is a point of it, hence of the world.
  have hcorner := (T.mem_cell root ((box (T.cell root l)).1.lo, (box (T.cell root l)).2.lo) l).mp
    ((hmem _ _).mpr ⟨⟨le_rfl, Or.inl (Side.lo_lt _)⟩, le_rfl, Or.inl (Side.lo_lt _)⟩)
  rw [hmem, hroot] at hcorner
  obtain ⟨⟨hxlo, hxhi⟩, hylo, hyhi⟩ := Rect.contains_iff.mp h
  exact Rect.contains_iff.mpr ⟨⟨hcorner.1.1.1.trans hxlo, hxhi.trans (Side.hi_le _)⟩,
    hcorner.1.2.1.trans hylo, hyhi.trans (Side.hi_le _)⟩

/-- Cells that the world is divided into by choices are a grid, if all are slots of its axes. -/
theorem ShardingStrategy.grid_of_cell {S σ ι : Type} {strategy : ShardingStrategy S}
    (T : Subdivision σ (ℚ × ℚ) ι) (box : σ → Box)
    (hmem : ∀ s p, T.Mem p s ↔ Side.Mem p.1 (box s).1 ∧ Side.Mem p.2 (box s).2) (root : σ)
    (hroot : box root = Box.root) (path : Point → List ι) {x y : Axis ℚ}
    (hbounds : ∀ p, strategy.bounds (strategy.locate p) = (box (T.cell root (path p))).toRect)
    (hslots : ∀ p, (box (T.cell root (path p))).1.Slot x ∧ (box (T.cell root (path p))).2.Slot y) :
    strategy.Grid x y := by
  constructor
  · rintro id ⟨p, rfl⟩
    obtain ⟨i, j, hrect⟩ := Box.toRect_of_slots (hslots p).1 (hslots p).2
    exact ⟨i, j, (hbounds p).trans hrect⟩
  · rintro id ⟨p, rfl⟩ point hpoint
    rw [hbounds] at hpoint
    exact Box.world_contains_of_cell T box hmem root hroot (path p) hpoint

/-- The cells of a geohash precision: five choices a character, the longitudes' first. -/
theorem GeohashStrategy.grid (strategy : GeohashStrategy) :
    strategy.toStrategy.Grid (Axis.halve^[(5 * strategy.precision + 1) / 2] worldX)
      (Axis.halve^[5 * strategy.precision / 2] worldY) := by
  refine ShardingStrategy.grid_of_cell Packer.halving Prod.snd (fun _ _ => Iff.rfl)
    Packer.halvingRoot rfl strategy.path (fun p => ?_) fun p => ?_
  · show bounds (strategy.locate p) = _
    rw [locate_eq, bounds_eq, (bits_encode strategy.le_max (strategy.length_path p)).1]
  · have hslots := Side.slot_cell_alternate (strategy.path p) Packer.halvingRoot Box.slot_root.1
      Box.slot_root.2
    rw [length_path] at hslots
    exact hslots

/-- The cells of a quad-tree depth. -/
theorem QuadTreeStrategy.grid (strategy : QuadTreeStrategy) :
    strategy.toStrategy.Grid (Axis.halve^[strategy.depth] worldX)
      (Axis.halve^[strategy.depth] worldY) := by
  refine ShardingStrategy.grid_of_cell quartering (fun s => s) (fun _ _ => Iff.rfl) Box.root rfl
    strategy.path (fun p => ?_) fun p => ?_
  · show bounds (strategy.locate p) = _
    rw [bounds_eq, children_locate]
  · have hslots := Side.slot_cell_prod (strategy.path p) Box.root Box.slot_root.1 Box.slot_root.2
    rw [length_path] at hslots
    exact hslots

theorem GeohashStrategy.exactNeighbours (strategy : GeohashStrategy) :
    strategy.toStrategy.ExactNeighbours := by
  apply strategy.grid.exactNeighbours strategy.partitions
  funext id
  show strategy.neighbours id = _
  rw [GeohashStrategy.neighbours]
  rfl

theorem QuadTreeStrategy.exactNeighbours (strategy : QuadTreeStrategy) :
    strategy.toStrategy.ExactNeighbours := by
  apply strategy.grid.exactNeighbours strategy.partitions
  funext id
  show strategy.neighbours id = _
  rw [QuadTreeStrategy.neighbours]
  rfl

/-- **The neighbours of a cell are the other cells that touch it**, for both strategies and at every
level. -/
theorem strategies_neighbours :
    (∀ strategy : GeohashStrategy, strategy.toStrategy.ExactNeighbours)
      ∧ ∀ strategy : QuadTreeStrategy, strategy.toStrategy.ExactNeighbours :=
  ⟨GeohashStrategy.exactNeighbours, QuadTreeStrategy.exactNeighbours⟩

end Routers
