import Routers.DataPlane
import Routers.Codec.Element
import Routers.Library.Text

/-!
# Building a network from a map file

A map file is read element by element.  A way that is a road adds an edge for each two of
its references in a row, and the opposite edge unless it is one-way; a node is kept if some
edge ends there.  Nothing asks whether the file contains the nodes that its ways refer to.

## Main definitions

* `RoadClass`, `OsmEdgeMetadata` — what is known of a road.
* `OsmNetwork.fromPbf` — the network of a list of elements.
* `Resolved` — the elements contain every node that an edge ends at.
* `Way.Leads` — the nodes that a way leads from and to.
* `legalEdges` — the edges of a way in the directions in which it may be travelled.

## Main results

* `edgeWeight_fromPbf_isSome_iff`, `point_fromPbf_isSome_iff` — what the network holds.
* `OsmNetwork.placed_fromPbf_iff` — **the network is placed exactly when the references resolve.**
* `edges_way_iff` — a way leads along its references, and back if it is two-way.
* `edges_ingest_eq_iff` — **when the edges of a way run in its legal directions.**

## References

`src/libs/routers_codec/src/osm/graph.rs`, `src/libs/routers_codec/src/osm/mod.rs`,
`src/libs/routers_codec/src/osm/parsers/primitives/road_class.rs` and
`src/libs/routers_codec/src/osm/element/variants/way.rs`.
-/

namespace Routers

/-! ### What is known of a road -/

/-- The classes of roads. -/
inductive RoadClass
  | motorway | motorwayLink | trunk | trunkLink | primary | primaryLink | secondary
  | secondaryLink | tertiary | tertiaryLink | unclassified | residential | livingStreet
  | service | pedestrian | track | raceway | busGuideway | busway | escape | road
  deriving DecidableEq, Repr, Inhabited

namespace RoadClass

/-- The class that a highway tag names. -/
def fromStr : String → Option RoadClass
  | "motorway" => some motorway
  | "motorway_link" => some motorwayLink
  | "trunk" => some trunk
  | "trunk_link" => some trunkLink
  | "primary" => some primary
  | "primary_link" => some primaryLink
  | "secondary" => some secondary
  | "secondary_link" => some secondaryLink
  | "tertiary" => some tertiary
  | "tertiary_link" => some tertiaryLink
  | "unclassified" => some unclassified
  | "residential" => some residential
  | "living_street" => some livingStreet
  | "service" => some service
  | "pedestrian" => some pedestrian
  | "track" => some track
  | "raceway" => some raceway
  | "bus_guideway" => some busGuideway
  | "busway" => some busway
  | "escape" => some escape
  | "road" => some road
  | _ => none

/-- The weight of an edge along a road of the class. -/
def weighting : RoadClass → ℕ
  | motorway => 1
  | motorwayLink => 2
  | trunk => 3
  | trunkLink => 4
  | primary => 5
  | primaryLink => 6
  | secondary => 7
  | secondaryLink => 8
  | tertiary => 9
  | tertiaryLink => 10
  | residential => 10
  | busway => 10
  | busGuideway => 10
  | unclassified => 10
  | livingStreet => 50
  | service => 50
  | road => 50
  | raceway => 100
  | escape => 100
  | track => 100
  | pedestrian => 100

end RoadClass

/-- A positive number below 256 in decimal, a plus sign allowed. -/
def parseNonZeroU8 (s : String) : Option ℕ :=
  (Text.parseUint 255 s.toList).filter fun n => n ≠ 0

/-- The metadata of a road, with speed limits `L` and access tags `A`. -/
structure OsmEdgeMetadata (L A : Type) where
  laneCount : Option ℕ
  speedLimit : Option L
  access : List A
  roadClass : Option RoadClass
  deriving DecidableEq, Repr, Inhabited

/-- What the parsers of speed limits and of access tags make of the tags of a way. -/
structure TagParsers (L A : Type) where
  speedLimit : Tags → Option L
  access : Tags → List A

variable {L A : Type}

/-- The metadata of a way by its tags. -/
def OsmEdgeMetadata.pick (parsers : TagParsers L A) (raw : Tags) : OsmEdgeMetadata L A where
  laneCount := (raw.get "lanes").bind parseNonZeroU8
  speedLimit := parsers.speedLimit raw
  access := parsers.access raw
  roadClass := (raw.get "highway").bind RoadClass.fromStr

/-! ### Ingestion -/

/-- What has been read of a file: its nodes, the edges of its roads and their metadata. -/
structure Trees (L A : Type) where
  nodes : List (Node OsmEntryId Point)
  edges : List (Edge OsmEntryId)
  metadata : List (OsmEntryId × OsmEdgeMetadata L A)

/-- The edges of a road: one for each two references in a row, and the opposite one if the
road is open both ways. -/
def wayEdges (id : OsmEntryId) (weight : ℕ) (bidirectional : Bool) (refs : List OsmEntryId) :
    List (Edge OsmEntryId) :=
  let directionAware := DirectionAwareEdgeId.new id
  (refs.zip refs.tail).flatMap fun hop =>
    ⟨hop.1, hop.2, weight, directionAware.forward⟩ ::
      if bidirectional then [⟨hop.2, hop.1, weight, directionAware.backward⟩] else []

/-- Take in an element. -/
def Trees.ingest (parsers : TagParsers L A) (trees : Trees L A) :
    ProcessedElement → Trees L A
  | .way way =>
    let metadata := OsmEdgeMetadata.pick parsers way.tags
    match metadata.roadClass with
    | none => trees
    | some roadClass =>
      { trees with
        metadata := trees.metadata ++ [(way.id, metadata)]
        edges := trees.edges ++
          wayEdges way.id roadClass.weighting (!way.tags.unidirectional) way.refs }
  | .node node => { trees with nodes := trees.nodes ++ [node] }
  | .relation => trees

/-- A network of roads. -/
structure OsmNetwork (L A : Type) where
  graph : GraphStructure OsmEntryId
  hash : IndexMap OsmEntryId (Node OsmEntryId Point)
  metas : IndexMap OsmEntryId (OsmEdgeMetadata L A)

namespace OsmNetwork

/-- The network as a search reads it. -/
def dataPlane (net : OsmNetwork L A) : DataPlane OsmEntryId (OsmEdgeMetadata L A) where
  graph := net.graph
  point id := (net.hash.get? id).map Node.position
  metadata := net.metas.get?

/-- The graph of a list of edges; of two with the same ends the later one stays. -/
def buildGraph (edges : List (Edge OsmEntryId)) : GraphStructure OsmEntryId :=
  GraphMap.empty.addEdges (edges.map fun e => (e.source, e.target, e.weight, e.id))

/-- The network of the elements of a map file.  The file is read in parallel, block by block,
and what was read is concatenated. -/
def fromPbf (parsers : TagParsers L A) (elements : List ProcessedElement) : OsmNetwork L A :=
  let trees := elements.foldl (Trees.ingest parsers) ⟨[], [], []⟩
  let graph := buildGraph trees.edges
  { graph := graph
    metas := IndexMap.ofList trees.metadata
    hash := IndexMap.ofList
      ((trees.nodes.filter fun node => graph.containsNode node.id).map fun node =>
        (node.id, node)) }

end OsmNetwork

/-! ### What is read of the elements -/

/-- The edges an element adds. -/
def ProcessedElement.edges : ProcessedElement → List (Edge OsmEntryId)
  | .way road =>
    match (road.tags.get "highway").bind RoadClass.fromStr with
    | none => []
    | some roadClass => wayEdges road.id roadClass.weighting (!road.tags.unidirectional) road.refs
  | _ => []

/-- The elements contain every node that one of their edges ends at. -/
def Resolved (elements : List ProcessedElement) : Prop :=
  ∀ element ∈ elements, ∀ e ∈ element.edges,
    (∃ n, ProcessedElement.node n ∈ elements ∧ n.id = e.source) ∧
      ∃ n, ProcessedElement.node n ∈ elements ∧ n.id = e.target

variable {parsers : TagParsers L A}

theorem edges_ingest (trees : Trees L A) (element : ProcessedElement) :
    (trees.ingest parsers element).edges = trees.edges ++ element.edges := by
  cases element with
  | node node => exact (List.append_nil _).symm
  | relation => exact (List.append_nil _).symm
  | way way =>
    unfold Trees.ingest ProcessedElement.edges OsmEdgeMetadata.pick
    simp only
    cases (way.tags.get "highway").bind RoadClass.fromStr with
    | none => exact (List.append_nil _).symm
    | some roadClass => rfl

theorem mem_nodes_ingest (trees : Trees L A) (element : ProcessedElement)
    (n : Node OsmEntryId Point) :
    n ∈ (trees.ingest parsers element).nodes ↔ n ∈ trees.nodes ∨ element = .node n := by
  cases element with
  | node node => simp [Trees.ingest, eq_comm]
  | relation => simp [Trees.ingest]
  | way way =>
    unfold Trees.ingest
    simp only [reduceCtorEq, or_false]
    cases (OsmEdgeMetadata.pick parsers way.tags).roadClass <;> rfl

theorem edges_foldl_ingest (elements : List ProcessedElement) (trees : Trees L A) :
    (elements.foldl (Trees.ingest parsers) trees).edges
      = trees.edges ++ elements.flatMap ProcessedElement.edges := by
  induction elements generalizing trees with
  | nil => simp
  | cons element elements ih =>
    rw [List.foldl_cons, ih, edges_ingest, List.flatMap_cons, List.append_assoc]

theorem mem_nodes_foldl_ingest (elements : List ProcessedElement) (trees : Trees L A)
    (n : Node OsmEntryId Point) : n ∈ (elements.foldl (Trees.ingest parsers) trees).nodes ↔
      n ∈ trees.nodes ∨ ProcessedElement.node n ∈ elements := by
  induction elements generalizing trees with
  | nil => simp
  | cons element elements ih =>
    rw [List.foldl_cons, ih, mem_nodes_ingest, List.mem_cons, or_assoc, eq_comm (a := element)]

/-! ### The network built -/

namespace OsmNetwork

variable (parsers)

/-- **The network has an edge** where an element has one. -/
theorem edgeWeight_fromPbf_isSome_iff (elements : List ProcessedElement) (a b : OsmEntryId) :
    ((fromPbf parsers elements).graph.edgeWeight a b).isSome ↔
      ∃ element ∈ elements, ∃ e ∈ element.edges, e.source = a ∧ e.target = b := by
  unfold fromPbf buildGraph
  simp only [GraphMap.edgeWeight_addEdges_isSome_iff, GraphMap.edgeWeight_empty,
    edges_foldl_ingest, List.nil_append, List.mem_map, List.mem_flatMap, Prod.mk.injEq]
  constructor
  · rintro (hnone | ⟨w, e, ⟨element, helement, he⟩, hsource, htarget, -⟩)
    · cases hnone
    · exact ⟨element, helement, e, he, hsource, htarget⟩
  · rintro ⟨element, helement, e, he, hsource, htarget⟩
    exact .inr ⟨(e.weight, e.id), e, ⟨element, helement, he⟩, hsource, htarget, rfl⟩

/-- **A node of the graph lies somewhere** if the elements contain it. -/
theorem point_fromPbf_isSome_iff (elements : List ProcessedElement) (id : OsmEntryId) :
    ((fromPbf parsers elements).dataPlane.point id).isSome ↔
      id ∈ (fromPbf parsers elements).graph.nodes ∧
        ∃ n, ProcessedElement.node n ∈ elements ∧ n.id = id := by
  have hnodes : ∀ n, n ∈ (elements.foldl (Trees.ingest parsers) ⟨[], [], []⟩).nodes ↔
      ProcessedElement.node n ∈ elements := by
    simp [mem_nodes_foldl_ingest]
  rw [dataPlane, Option.isSome_map, ← IndexMap.contains]
  unfold fromPbf
  simp only [IndexMap.contains_ofList_iff, List.map_map, List.mem_map, List.mem_filter, hnodes,
    GraphMap.containsNode, decide_eq_true_eq, Function.comp_apply]
  constructor
  · rintro ⟨n, ⟨hmem, hgraph⟩, rfl⟩
    exact ⟨hgraph, n, hmem, rfl⟩
  · rintro ⟨hgraph, n, hmem, rfl⟩
    exact ⟨n, ⟨hmem, hgraph⟩, rfl⟩

/-- **The network is placed exactly when the references resolve.** -/
theorem placed_fromPbf_iff (elements : List ProcessedElement) :
    (fromPbf parsers elements).dataPlane.Placed ↔ Resolved elements := by
  constructor
  · intro h element helement e he
    obtain ⟨w, hw⟩ := Option.isSome_iff_exists.mp
      ((edgeWeight_fromPbf_isSome_iff parsers elements e.source e.target).mpr
        ⟨element, helement, e, he, rfl, rfl⟩)
    obtain ⟨hsource, htarget⟩ := h e.source e.target w hw
    exact ⟨((point_fromPbf_isSome_iff parsers elements _).mp hsource).2,
      ((point_fromPbf_isSome_iff parsers elements _).mp htarget).2⟩
  · intro h a b w hw
    obtain ⟨hsource, htarget⟩ := GraphMap.mem_nodes_of_edgeWeight hw
    obtain ⟨element, helement, e, he, rfl, rfl⟩ :=
      (edgeWeight_fromPbf_isSome_iff parsers elements a b).mp (Option.isSome_of_eq_some hw)
    obtain ⟨hs, ht⟩ := h element helement e he
    exact ⟨(point_fromPbf_isSome_iff parsers elements _).mpr ⟨hsource, hs⟩,
      (point_fromPbf_isSome_iff parsers elements _).mpr ⟨htarget, ht⟩⟩

end OsmNetwork

/-! ### The legal directions of a way -/

namespace Tags

/-- The way may be travelled against the order of its references only. -/
def Reversed (tags : Tags) : Prop := tags.get "oneway" = some "-1"

/-- The way may be travelled both ways. -/
def TwoWay (tags : Tags) : Prop :=
  tags.get "oneway" ≠ some "yes" ∧ tags.get "oneway" ≠ some "-1" ∧
    tags.get "junction" ≠ some "roundabout" ∧ tags.get "junction" ≠ some "circular"

instance (tags : Tags) : Decidable tags.Reversed := by unfold Reversed; infer_instance

instance (tags : Tags) : Decidable tags.TwoWay := by unfold TwoWay; infer_instance

theorem unidirectional_eq (tags : Tags) : tags.unidirectional = !decide tags.TwoWay := by
  rw [Bool.eq_iff_iff, Bool.not_eq_true', decide_eq_false_iff_not]
  unfold unidirectional oneWay roundabout TwoWay
  cases tags.get "oneway" <;> cases tags.get "junction" <;> simp <;> tauto

end Tags

/-- A road leads from each of its references to the next, and back if it is two-way.  That is so of
a reversed road as well. -/
def Way.Leads (way : Way) (a b : OsmEntryId) : Prop :=
  ((way.tags.get "highway").bind RoadClass.fromStr).isSome ∧
    ((a, b) ∈ way.refs.zip way.refs.tail ∨ way.tags.TwoWay ∧ (b, a) ∈ way.refs.zip way.refs.tail)

/-- **A way adds an edge** from one node to another exactly if it leads there. -/
theorem edges_way_iff (way : Way) (a b : OsmEntryId) :
    (∃ e ∈ (ProcessedElement.way way).edges, e.source = a ∧ e.target = b) ↔ way.Leads a b := by
  unfold ProcessedElement.edges Way.Leads
  simp only
  cases (way.tags.get "highway").bind RoadClass.fromStr with
  | none => simp
  | some roadClass =>
    simp only [wayEdges, Tags.unidirectional_eq, Bool.not_not, List.mem_flatMap, Option.isSome_some,
      true_and]
    constructor
    · rintro ⟨e, ⟨⟨c, d⟩, hhop, he⟩, rfl, rfl⟩
      rcases List.mem_cons.mp he with rfl | he
      · exact Or.inl hhop
      · split at he
        · next htwo =>
          rw [List.mem_singleton.mp he]
          exact Or.inr ⟨of_decide_eq_true htwo, hhop⟩
        · cases he
    · rintro (hhop | ⟨htwo, hhop⟩)
      · exact ⟨_, ⟨(a, b), hhop, List.mem_cons_self⟩, rfl, rfl⟩
      · refine ⟨⟨a, b, roadClass.weighting, (DirectionAwareEdgeId.new way.id).backward⟩,
          ⟨(b, a), hhop, List.mem_cons_of_mem _ ?_⟩, rfl, rfl⟩
        rw [if_pos (decide_eq_true htwo)]
        exact List.mem_singleton_self _

/-- The edges of a way between two references in a row, by its tags. -/
def legalHop (way : Way) (weight : ℕ) (a b : OsmEntryId) : List (Edge OsmEntryId) :=
  (if way.tags.Reversed then [] else [⟨a, b, weight, ⟨way.id, .outgoing⟩⟩]) ++
    if way.tags.TwoWay ∨ way.tags.Reversed then [⟨b, a, weight, ⟨way.id, .incoming⟩⟩] else []

/-- The edges of a way in the directions in which it may be travelled. -/
def legalEdges (way : Way) : List (Edge OsmEntryId) :=
  match (way.tags.get "highway").bind RoadClass.fromStr with
  | none => []
  | some roadClass =>
    (way.refs.zip way.refs.tail).flatMap fun hop => legalHop way roadClass.weighting hop.1 hop.2

/-- Away from the reversed ways, an edge of its own for each legal direction. -/
theorem wayEdges_eq_of_not_reversed {way : Way} (h : ¬ way.tags.Reversed) (weight : ℕ) :
    wayEdges way.id weight (!way.tags.unidirectional) way.refs
      = (way.refs.zip way.refs.tail).flatMap fun hop => legalHop way weight hop.1 hop.2 := by
  unfold wayEdges legalHop
  simp only [Tags.unidirectional_eq, Bool.not_not, h, if_false, or_false]
  by_cases htwo : way.tags.TwoWay <;>
    simp [htwo, DirectionAwareEdgeId.new, DirectionAwareEdgeId.forward,
      DirectionAwareEdgeId.backward]

/-- Consecutive references, by the first two. -/
theorem zip_tail_ne_nil_iff (refs : List OsmEntryId) :
    refs.zip refs.tail ≠ [] ↔ 2 ≤ refs.length := by
  rw [← List.length_pos_iff, List.length_zip, List.length_tail]
  omega

/-- A reversed way of two references or more gets an edge that may not be travelled. -/
theorem wayEdges_ne_of_reversed {way : Way} (h : way.tags.Reversed) (hrefs : 2 ≤ way.refs.length)
    (weight : ℕ) : wayEdges way.id weight (!way.tags.unidirectional) way.refs ≠
      (way.refs.zip way.refs.tail).flatMap fun hop => legalHop way weight hop.1 hop.2 := by
  obtain ⟨hop, hops, hzip⟩ := List.exists_cons_of_ne_nil ((zip_tail_ne_nil_iff _).mpr hrefs)
  unfold wayEdges legalHop
  simp only [hzip, List.flatMap_cons, h, or_true, if_true, List.nil_append, List.cons_append]
  -- the first edge is stamped with the other direction
  intro heq
  have hdirection := congrArg (fun e : Edge OsmEntryId => e.id.direction) (List.cons.inj heq).1
  cases hdirection

theorem edges_eq_legalEdges_iff (way : Way) :
    (ProcessedElement.way way).edges = legalEdges way ↔
      ¬ (way.tags.Reversed ∧ ((way.tags.get "highway").bind RoadClass.fromStr).isSome ∧
        2 ≤ way.refs.length) := by
  unfold ProcessedElement.edges legalEdges
  simp only
  cases (way.tags.get "highway").bind RoadClass.fromStr with
  | none => simp
  | some roadClass =>
    simp only [Option.isSome_some, true_and, not_and, not_le]
    by_cases hreversed : way.tags.Reversed
    · simp only [hreversed, forall_const]
      constructor
      · intro heq
        by_contra hrefs
        exact wayEdges_ne_of_reversed hreversed (not_lt.mp hrefs) _ heq
      · intro hrefs
        have hzip : way.refs.zip way.refs.tail = [] :=
          not_ne_iff.mp fun hne => hrefs.not_ge ((zip_tail_ne_nil_iff _).mp hne)
        simp only [wayEdges, hzip, List.flatMap_nil]
    · exact iff_of_true (wayEdges_eq_of_not_reversed hreversed _) fun h => absurd h hreversed

/-- Of a whole file without reversed roads, the edges are the legal ones. -/
theorem edges_foldl_ingest_ways (ways : List Way) (h : ∀ way ∈ ways, ¬ way.tags.Reversed)
    (trees : Trees L A) :
    ((ways.map ProcessedElement.way).foldl (Trees.ingest parsers) trees).edges
      = trees.edges ++ ways.flatMap legalEdges := by
  rw [edges_foldl_ingest, List.flatMap_map]
  refine congrArg _ (List.flatMap_congr fun way hway => ?_)
  exact (edges_eq_legalEdges_iff way).mpr fun hreversed => h way hway hreversed.1

/-- **The edges of a way run in its legal directions**, exactly unless the way is a reversed
road of two references or more. -/
theorem edges_ingest_eq_iff (parsers : TagParsers L A) (trees : Trees L A) (way : Way) :
    (trees.ingest parsers (.way way)).edges = trees.edges ++ legalEdges way ↔
      ¬ (way.tags.Reversed ∧ ((way.tags.get "highway").bind RoadClass.fromStr).isSome ∧
        2 ≤ way.refs.length) := by
  rw [edges_ingest, List.append_cancel_left_eq]
  exact edges_eq_legalEdges_iff way

/-- A primary road that may be travelled from its second node to its first. -/
def reversedRoad : Way where
  id := ⟨7⟩
  refs := [⟨1⟩, ⟨2⟩]
  tags := ⟨[("highway", "primary"), ("oneway", "-1")]⟩

/-- Its edge runs from the first node to the second. -/
theorem reversedRoad_edges :
    (Trees.ingest (⟨fun _ => none, fun _ => []⟩ : TagParsers Unit Unit) ⟨[], [], []⟩
      (.way reversedRoad)).edges ≠ legalEdges reversedRoad := by
  decide

end Routers
