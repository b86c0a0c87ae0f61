import Mathlib
import Routers.Geo
import Routers.Library.DeltaCoding

/-!
# Elements of a map file

What a primitive block of a map file holds, and what is read from it.  Nodes come in two
encodings: as messages of their own, and densely, as three columns of differences.  A block
scales its coordinates by a granularity and shifts them by two offsets; the dense reader
applies the granularity, the plain one neither.

## Main definitions

* `Osm.PrimitiveBlock`, `Osm.Node`, `Osm.DenseNodes`, `Osm.Way` — the messages.
* `Tags`, `Way` — what is kept of a way.
* `nodes`, `node`, `ProcessedElement.fromRaw` — the readers.

## Main results

* `nodes_densify`, `references_differences` — columns of differences are read back.
* `decodesAlike_iff` — **when the two encodings of nodes are read alike, and as the format
  defines.**

## References

`src/libs/routers_codec/src/osm/element/item.rs`,
`src/libs/routers_codec/src/osm/element/variants/node.rs`,
`src/libs/routers_codec/src/osm/element/variants/way.rs` and
`src/libs/routers_codec/src/osm/element/variants/mod.rs`.
-/

namespace Routers

open DeltaCoding

/-- An entry of the map, be it a node or a way: only the number identifies it. -/
structure OsmEntryId where
  identifier : ℤ
  deriving DecidableEq, Repr, Inhabited

namespace OsmEntryId

/-- The entry of a node. -/
def node (identifier : ℤ) : OsmEntryId := ⟨identifier⟩

/-- The entry of a way. -/
def way (identifier : ℤ) : OsmEntryId := ⟨identifier⟩

end OsmEntryId

/-! ### Messages -/

namespace Osm

/-- A node by itself: an identifier, and coordinates in the units of its block. -/
structure Node where
  id : ℤ
  lat : ℤ
  lon : ℤ
  deriving DecidableEq, Repr, Inhabited

/-- Nodes in columns, each entry as it differs from the one before. -/
structure DenseNodes where
  id : List ℤ
  lat : List ℤ
  lon : List ℤ
  deriving DecidableEq, Repr, Inhabited

/-- A way: indices of its tags into the string table, and its nodes by differences. -/
structure Way where
  id : ℤ
  keys : List ℕ
  vals : List ℕ
  refs : List ℤ
  deriving DecidableEq, Repr, Inhabited

/-- What the elements of a block share: its texts, and how its coordinates are to be read. -/
structure PrimitiveBlock where
  stringtable : List ByteArray
  granularity : Option ℤ
  latOffset : Option ℤ
  lonOffset : Option ℤ
  deriving DecidableEq, Inhabited

end Osm

/-- The string at an index of the table, empty where there is none or it is not UTF-8. -/
def recoverStr (k : ℕ) (block : Osm.PrimitiveBlock) : String :=
  (block.stringtable[k]?.bind String.fromUTF8?).getD ""

/-! ### Tags and ways -/

/-- Tags, in the order in which they are collected into a map. -/
structure Tags where
  entries : List (String × String)
  deriving DecidableEq, Repr, Inhabited

namespace Tags

/-- The value of a key: of the entries with that key the last collected. -/
def get (tags : Tags) (assoc : String) : Option String := tags.entries.reverse.lookup assoc

/-- The tags whose keys and values are at these places of the block's table. -/
def fromBlock (indices : List (ℕ × ℕ)) (block : Osm.PrimitiveBlock) : Tags :=
  ⟨indices.map fun entry => (recoverStr entry.1 block, recoverStr entry.2 block)⟩

/-- The way is marked as one-way, be it along or against its nodes. -/
def oneWay (tags : Tags) : Bool :=
  (tags.get "oneway").any fun v => decide (v = "yes") || decide (v = "-1")

/-- The way is marked as a roundabout, or as circular. -/
def roundabout (tags : Tags) : Bool :=
  (tags.get "junction").any fun v => decide (v = "roundabout") || decide (v = "circular")

/-- The way is driven in one direction only. -/
def unidirectional (tags : Tags) : Bool := tags.oneWay || tags.roundabout

end Tags

/-- What is kept of a way. -/
structure Way where
  id : OsmEntryId
  refs : List OsmEntryId
  tags : Tags
  deriving DecidableEq, Repr, Inhabited

/-- The entries that a column of differences refers to. -/
def references (refs : List ℤ) : List OsmEntryId :=
  accumulate (fun prior index => ⟨index + prior.elim 0 OsmEntryId.identifier⟩) refs

/-- The way of a message; a key without a value, or a value without a key, is left out. -/
def Way.fromRaw (value : Osm.Way) (block : Osm.PrimitiveBlock) : Way where
  id := OsmEntryId.way value.id
  refs := references value.refs
  tags := Tags.fromBlock (value.keys.zip value.vals) block

/-- The differences of a column. -/
def deltas {γ : Type} (column : γ → ℤ) (l : List γ) : List ℤ :=
  differences (fun prior v => column v - prior.elim 0 column) none l

/-- A column of differences refers to the entries it was made from. -/
theorem references_differences (l : List ℤ) : references (deltas id l) = l.map OsmEntryId.mk :=
  accumulate_differences
    (fun prior v => by cases prior <;> simp) l

/-! ### Nodes -/

/-- The node a dense entry adds next to the last one. -/
def nodeAfter (scalingFactor : ℚ) (prior : Option (Node OsmEntryId Point))
    (entry : (ℤ × ℤ) × ℤ) : Node OsmEntryId Point :=
  let ((lng, lat), id) := entry
  match prior with
  | some prior =>
    { id := OsmEntryId.node (prior.id.identifier + id)
      position := ⟨prior.position.x + lng * scalingFactor, prior.position.y + lat * scalingFactor⟩ }
  | none => { id := OsmEntryId.node id, position := ⟨lng * scalingFactor, lat * scalingFactor⟩ }

/-- The nodes of a dense message. -/
def nodes (dense : Osm.DenseNodes) (granularity : ℤ) : List (Node OsmEntryId Point) :=
  accumulate (nodeAfter (granularity * 1e-9)) ((dense.lon.zip dense.lat).zip dense.id)

/-- The node of a message of its own. -/
def node (value : Osm.Node) : Node OsmEntryId Point where
  id := OsmEntryId.node value.id
  position := ⟨value.lon, value.lat⟩

/-- A message of a block, by its kind. -/
inductive Element
  | node (node : Osm.Node)
  | way (way : Osm.Way)
  | denseNodes (dense : Osm.DenseNodes)
  | relation
  deriving DecidableEq, Repr, Inhabited

/-- What is read from a message; of relations nothing is kept. -/
inductive ProcessedElement
  | node (node : Node OsmEntryId Point)
  | way (way : Way)
  | relation
  deriving DecidableEq, Repr, Inhabited

/-- What is read of an element; relations are left out. -/
def ProcessedElement.fromRaw (element : Element) (block : Osm.PrimitiveBlock) :
    List ProcessedElement :=
  let granularity := block.granularity.getD 100
  match element with
  | .denseNodes dense => (nodes dense granularity).map .node
  | .node value => [.node (Routers.node value)]
  | .way value => [.way (Way.fromRaw value block)]
  | .relation => []

/-! ### The two encodings -/

/-- Nodes in their dense form. -/
def densify (l : List Osm.Node) : Osm.DenseNodes where
  id := deltas Osm.Node.id l
  lat := deltas Osm.Node.lat l
  lon := deltas Osm.Node.lon l

/-- The dense reader applies the granularity, to each node by itself. -/
theorem nodes_densify (l : List Osm.Node) (granularity : ℤ) :
    nodes (densify l) granularity = l.map fun n =>
      ⟨⟨n.id⟩, ⟨n.lon * (granularity * 1e-9), n.lat * (granularity * 1e-9)⟩⟩ := by
  simp only [nodes, densify, deltas, zip_differences]
  refine accumulate_differences (fun prior v => ?_) l
  cases prior with
  | none => simp [nodeAfter, OsmEntryId.node]
  | some p =>
    simp only [nodeAfter, OsmEntryId.node, Option.map_some, Option.elim_some, Node.mk.injEq,
      Point.mk.injEq, OsmEntryId.mk.injEq]
    push_cast
    refine ⟨by ring, by ring, by ring⟩

/-- A coordinate as the format defines it, in degrees. -/
def degrees (offset granularity value : ℤ) : ℚ := 1e-9 * (offset + granularity * value)

/-- A node as the format defines it. -/
def formatNode (block : Osm.PrimitiveBlock) (n : Osm.Node) : Node OsmEntryId Point where
  id := ⟨n.id⟩
  position :=
    { x := degrees (block.lonOffset.getD 0) (block.granularity.getD 100) n.lon
      y := degrees (block.latOffset.getD 0) (block.granularity.getD 100) n.lat }

/-- Both encodings of the nodes are read alike, and as the format defines. -/
def DecodesAlike (block : Osm.PrimitiveBlock) (l : List Osm.Node) : Prop :=
  ProcessedElement.fromRaw (.denseNodes (densify l)) block
      = l.flatMap (fun n => ProcessedElement.fromRaw (.node n) block) ∧
    ProcessedElement.fromRaw (.denseNodes (densify l)) block
      = l.map fun n => .node (formatNode block n)

/-- Scaled alone, a coordinate is right where there is no offset. -/
theorem mul_scale_eq_degrees_iff (offset granularity value : ℤ) :
    (value : ℚ) * (granularity * 1e-9) = degrees offset granularity value ↔ offset = 0 := by
  have hshift : degrees offset granularity value
      = value * (granularity * 1e-9) + 1e-9 * offset := by
    unfold degrees
    ring
  rw [hshift, left_eq_add, mul_eq_zero, Int.cast_eq_zero]
  norm_num

/-- A raw coordinate needs no scaling where the granularity is a degree. -/
theorem mul_scale_eq_self_iff (granularity value : ℤ) :
    (value : ℚ) * (granularity * 1e-9) = value ↔ value = 0 ∨ granularity = 10 ^ 9 := by
  rw [mul_right_eq_self₀, Int.cast_eq_zero, or_comm]
  refine or_congr_right ⟨fun h => ?_, fun h => ?_⟩
  · have : (granularity : ℚ) = 10 ^ 9 := by linarith
    exact_mod_cast this
  · rw [h]
    norm_num

/-- **The two encodings are read alike, as the format defines**, exactly where the block has
no offsets and either its granularity is a whole degree or all the coordinates are zero. -/
theorem decodesAlike_iff (block : Osm.PrimitiveBlock) (l : List Osm.Node) :
    DecodesAlike block l ↔ l = [] ∨
      (block.lonOffset.getD 0 = 0 ∧ block.latOffset.getD 0 = 0 ∧
        (block.granularity.getD 100 = 10 ^ 9 ∨ ∀ n ∈ l, n.lon = 0 ∧ n.lat = 0)) := by
  have hdense : ProcessedElement.fromRaw (.denseNodes (densify l)) block = l.map fun n =>
      .node ⟨⟨n.id⟩, ⟨n.lon * (block.granularity.getD 100 * 1e-9),
        n.lat * (block.granularity.getD 100 * 1e-9)⟩⟩ := by
    simp only [ProcessedElement.fromRaw, nodes_densify, List.map_map]
    rfl
  have hplain : l.flatMap (fun n => ProcessedElement.fromRaw (.node n) block)
      = l.map fun n => .node (node n) := by
    simp only [ProcessedElement.fromRaw, ← List.map_eq_flatMap]
  -- node by node, the scaled position against the raw one and against the format's
  have hnode : DecodesAlike block l ↔ ∀ n ∈ l,
      ((n.lon = 0 ∨ block.granularity.getD 100 = 10 ^ 9) ∧
        (n.lat = 0 ∨ block.granularity.getD 100 = 10 ^ 9)) ∧
      block.lonOffset.getD 0 = 0 ∧ block.latOffset.getD 0 = 0 := by
    rw [DecodesAlike, hdense, hplain, List.map_inj_left, List.map_inj_left, ← forall₂_and]
    refine forall₂_congr fun n _ => ?_
    simp only [node, formatNode, OsmEntryId.node, ProcessedElement.node.injEq, Node.mk.injEq,
      Point.mk.injEq, true_and, mul_scale_eq_self_iff, mul_scale_eq_degrees_iff]
  rw [hnode]
  cases l with
  | nil => simp
  | cons n l =>
    simp only [reduceCtorEq, false_or]
    constructor
    · intro h
      obtain ⟨-, hlon, hlat⟩ := h n List.mem_cons_self
      refine ⟨hlon, hlat, ?_⟩
      by_cases hg : block.granularity.getD 100 = 10 ^ 9
      · exact .inl hg
      · exact .inr fun n hn => by simpa only [hg, or_false] using (h n hn).1
    · rintro ⟨hlon, hlat, hg | hzero⟩ n hn
      · exact ⟨⟨.inr hg, .inr hg⟩, hlon, hlat⟩
      · exact ⟨⟨.inl (hzero n hn).1, .inl (hzero n hn).2⟩, hlon, hlat⟩

/-- One node near Greenwich, in a block that leaves everything to the defaults. -/
theorem greenwich_not_decodesAlike :
    ¬ DecodesAlike ⟨[], none, none, none⟩ [⟨1, 514769000, -5000⟩] := by
  unfold DecodesAlike
  decide +kernel

end Routers
