import Routers.Codec.Block
import Routers.Codec.Graph
import Routers.Library.ForkJoin

/-!
# Reading a file in parallel

The elements of a file are worked off by as many threads as there are.  How they share the blocks,
and the elements of a block, is up to the scheduler; the results are concatenated, and the graph
keeps the later of two edges between the same nodes.  The network built is nevertheless that of the
elements one after the other.

## Main definitions

* `Element.fromGroup`, `BlockItem.elementIter` — the elements of a block.
* `Schedule` — how the blocks and their elements are shared.
* `Schedule.parRed` — the parallel fold.
* `OsmNetwork.readPbf` — the network of a file, read in parallel.

## Main results

* `Schedule.parRed_eq_foldl` — **the fold does not show its schedule.**
* `OsmNetwork.readPbf_spec` — **the network of a file is that of its readable blobs in order.**

## References

`src/libs/routers_codec/src/osm/parallel.rs`, `src/libs/routers_codec/src/osm/element/item.rs`,
`src/libs/routers_codec/src/osm/element/processed_iterator.rs`,
`src/libs/routers_codec/src/osm/block/item.rs` and `src/libs/routers_codec/src/osm/graph.rs`.
-/

namespace Routers

open ForkJoin

variable {H : Type}

/-! ### The elements of a block -/

namespace Osm

/-- A relation; nothing but its place is made use of. -/
structure Relation where
  id : ℤ
  deriving DecidableEq, Repr

/-- The messages of a group, each kind by itself. -/
structure PrimitiveGroup where
  nodes : List Node
  dense : Option DenseNodes
  ways : List Way
  relations : List Relation

/-- A primitive block with its groups. -/
structure PrimitiveMessage where
  block : PrimitiveBlock
  primitivegroup : List PrimitiveGroup

end Osm

/-- The elements of a group: its ways, its nodes, its relations, and all dense nodes at once. -/
def Element.fromGroup (group : Osm.PrimitiveGroup) : List Element :=
  group.ways.map .way ++ group.nodes.map .node ++ group.relations.map (fun _ => .relation) ++
    group.dense.toList.map .denseNodes

namespace BlockItem

/-- The messages of a block, one after the other. -/
def rawElementIter : BlockItem H Osm.PrimitiveMessage → List Element
  | .primitiveBlock primitive => primitive.primitivegroup.flatMap Element.fromGroup
  | .headerBlock _ => []

/-- What is read from the messages of a block, one after the other. -/
def elementIter : BlockItem H Osm.PrimitiveMessage → List ProcessedElement
  | .primitiveBlock primitive =>
    (primitive.primitivegroup.flatMap Element.fromGroup).flatMap fun element =>
      ProcessedElement.fromRaw element primitive.block
  | .headerBlock _ => []

/-- The ways of a block are those of its groups. -/
theorem way_mem_elementIter {primitive : Osm.PrimitiveMessage} {way : Way} :
    ProcessedElement.way way ∈ (primitiveBlock (H := H) primitive).elementIter ↔
      ∃ group ∈ primitive.primitivegroup, ∃ raw ∈ group.ways,
        way = Way.fromRaw raw primitive.block := by
  simp only [elementIter, List.mem_flatMap]
  constructor
  · intro h
    obtain ⟨element, ⟨group, hgroup, helement⟩, hway⟩ := h
    cases element with
    | way raw =>
      have hraw : raw ∈ group.ways := by simpa [Element.fromGroup] using helement
      have hfrom : way = Way.fromRaw raw primitive.block := by
        simpa [ProcessedElement.fromRaw] using hway
      exact ⟨group, hgroup, raw, hraw, hfrom⟩
    | _ => simp [ProcessedElement.fromRaw] at hway
  · intro h
    obtain ⟨group, hgroup, raw, hraw, rfl⟩ := h
    have helement : Element.way raw ∈ Element.fromGroup group := by
      simp [Element.fromGroup, hraw]
    exact ⟨.way raw, ⟨group, hgroup, helement⟩, List.mem_singleton_self _⟩

end BlockItem

/-! ### Parallel reductions -/

/-- How the elements of some blocks are shared: the blocks, and the elements of each, broken up. -/
structure Schedule {α : Type} (blocks : List (List α)) where
  outer : Split (Split (List α))
  covers : outer.items.map (fun chunks => chunks.items.flatten) = blocks

namespace Schedule

variable {α β : Type} {blocks : List (List α)} (schedule : Schedule blocks)

/-- Fold the elements, in parallel. -/
def parRed (foldOp : β → α → β) (combine : β → β → β) (ident : β) : β :=
  (schedule.outer.map fun chunks =>
    (chunks.map fun chunk => chunk.foldl foldOp ident).reduce ident combine).reduce ident combine

/-- **A parallel fold is the fold** of the elements of one block after the other. -/
theorem parRed_eq_foldl {foldOp : β → α → β} {combine : β → β → β} {ident : β}
    (h : JoinsFold ident foldOp combine) :
    schedule.parRed foldOp combine ident = blocks.flatten.foldl foldOp ident := by
  have hblocks : (schedule.outer.map fun chunks =>
        (chunks.map fun chunk => chunk.foldl foldOp ident).reduce ident combine)
      = (schedule.outer.map fun chunks => chunks.items.flatten).map
          fun elements => elements.foldl foldOp ident := by
    rw [Split.map_map]
    congr 1
    funext chunks
    exact Split.reduce_fold h chunks
  rw [parRed, hblocks, Split.reduce_fold h, Split.items_map, schedule.covers]

end Schedule

/-! ### The network of a file -/

variable {L A : Type}

namespace Trees

/-- What has been read of two parts of a file. -/
def extend (aTree bTree : Trees L A) : Trees L A where
  nodes := aTree.nodes ++ bTree.nodes
  edges := aTree.edges ++ bTree.edges
  metadata := aTree.metadata ++ bTree.metadata

/-- The network of what has been read. -/
def network (trees : Trees L A) : OsmNetwork L A :=
  let graph := OsmNetwork.buildGraph trees.edges
  { graph := graph
    metas := IndexMap.ofList trees.metadata
    hash := IndexMap.ofList
      ((trees.nodes.filter fun node => graph.containsNode node.id).map fun node =>
        (node.id, node)) }

/-- What is read next of a part may as well be read once the part is concatenated. -/
theorem joinsFold_ingest (parsers : TagParsers L A) :
    JoinsFold ⟨[], [], []⟩ (ingest parsers) (extend (L := L) (A := A)) where
  combine_ident trees := by simp [extend]
  combine_fold aTree bTree element := by
    cases element with
    | node node => simp [ingest, extend]
    | relation => rfl
    | way way =>
      unfold ingest
      dsimp only
      cases (OsmEdgeMetadata.pick parsers way.tags).roadClass with
      | none => rfl
      | some roadClass => simp [extend]

end Trees

/-- The blocks of a file, each with its elements. -/
def BlockIterator.elements (decoders : Decoders H Osm.PrimitiveMessage) (it : BlockIterator) :
    List (List ProcessedElement) :=
  (it.parIter decoders).map BlockItem.elementIter

namespace OsmNetwork

/-- The network of a file, read in parallel. -/
def readPbf (parsers : TagParsers L A) (decoders : Decoders H Osm.PrimitiveMessage)
    (it : BlockIterator) (schedule : Schedule (it.elements decoders)) : OsmNetwork L A :=
  (schedule.parRed (Trees.ingest parsers) Trees.extend ⟨[], [], []⟩).network

/-- **The network of a file is that of its readable blobs in order**, however the blocks and their
elements are shared: and there is an edge from one node to another exactly where a road of some
readable blob has these in a row, or the other way around if it is two-way. -/
theorem readPbf_spec (parsers : TagParsers L A) (decoders : Decoders H Osm.PrimitiveMessage)
    (it : BlockIterator) (schedule : Schedule (it.elements decoders)) :
    readPbf parsers decoders it schedule = fromPbf parsers (it.elements decoders).flatten ∧
      ∀ a b, ((readPbf parsers decoders it schedule).graph.edgeWeight a b).isSome ↔
        ∃ blob ∈ it.blobs, ∃ primitive,
          BlockItem.fromBlobItem decoders blob it.buf = some (.primitiveBlock primitive) ∧
          ∃ group ∈ primitive.primitivegroup, ∃ way ∈ group.ways,
            (Way.fromRaw way primitive.block).Leads a b := by
  have hread : readPbf parsers decoders it schedule
      = fromPbf parsers (it.elements decoders).flatten := by
    rw [readPbf, schedule.parRed_eq_foldl (Trees.joinsFold_ingest parsers)]
    rfl
  refine ⟨hread, fun a b => ?_⟩
  rw [hread, edgeWeight_fromPbf_isSome_iff]
  constructor
  · intro h
    obtain ⟨element, helement, e, he, hends⟩ := h
    obtain ⟨elements, helements, hmem⟩ := List.mem_flatten.mp helement
    obtain ⟨item, hitem, rfl⟩ := List.mem_map.mp helements
    obtain ⟨blob, hblob, hfrom⟩ := List.mem_filterMap.mp hitem
    cases element with
    | way way =>
      cases item with
      | headerBlock block => cases hmem
      | primitiveBlock primitive =>
        obtain ⟨group, hgroup, raw, hraw, rfl⟩ := BlockItem.way_mem_elementIter.mp hmem
        exact ⟨blob, hblob, primitive, hfrom, group, hgroup, raw, hraw,
          (edges_way_iff _ a b).mp ⟨e, he, hends⟩⟩
    | _ => cases he
  · intro h
    obtain ⟨blob, hblob, primitive, hfrom, group, hgroup, raw, hraw, hleads⟩ := h
    obtain ⟨e, he, hends⟩ := (edges_way_iff _ a b).mpr hleads
    have hway := BlockItem.way_mem_elementIter (H := H).mpr ⟨group, hgroup, raw, hraw, rfl⟩
    have hitem : .primitiveBlock primitive ∈ it.parIter decoders :=
      List.mem_filterMap.mpr ⟨blob, hblob, hfrom⟩
    exact ⟨_, List.mem_flatten.mpr ⟨_, List.mem_map_of_mem hitem, hway⟩, e, he, hends⟩

end OsmNetwork

end Routers
