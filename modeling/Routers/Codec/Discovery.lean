import Routers.Codec.Graph
import Routers.Discovery

/-!
# Discovery in the network of a map file

The edge index of this network holds its edges with their nodes in place, as they were when the
index was built.

## Main definitions

* `OsmNetwork.edgeRows`, `OsmNetwork.edgesInBox` — the view through the index.
* `OsmNetwork.edge`, `OsmNetwork.fatten` — the view by identifiers.

## Main results

* `OsmNetwork.indexed_of_mem_edgesInBox` — the index shows edges of the graph.
* `OsmNetwork.keyed_fromPbf` — the nodes of a network built are found under their identifiers.

## References

`src/libs/routers_codec/src/osm/graph.rs`.
-/

namespace Routers

namespace OsmNetwork

variable {L A : Type} (net : OsmNetwork L A)

/-- The node of an identifier. -/
def node (id : OsmEntryId) : Option (Node OsmEntryId Point) := net.hash.get? id

/-- The network as one that is looked about in. -/
def discovery : Discovery OsmEntryId := ⟨net.graph, net.node⟩

/-- The edge from a node to another. -/
def edge (source target : OsmEntryId) : Option (Edge OsmEntryId) := net.discovery.edge source target

/-- An edge with its nodes for their identifiers, if both are known. -/
def fatten (e : Edge OsmEntryId) : Option (Edge (Node OsmEntryId Point)) := net.discovery.fatten e

/-- The rows of the edge index: the edges both of whose ends lie somewhere. -/
def edgeRows : List (Edge (Node OsmEntryId Point)) :=
  net.graph.allEdges.filterMap fun (s, t, weight, id) => do
    let source ← net.hash.get? s
    let target ← net.hash.get? t
    return {
      source := source
      target := target
      id := (DirectionAwareEdgeId.new (Discovery.placeholder id.index)).withDirection id.direction
      weight := weight }

/-- The edge index as it is rebuilt. -/
def indexEdge : RowIndex (Edge (Node OsmEntryId Point)) :=
  RowIndex.build net.edgeRows fun e => envelopeOf e.source.position e.target.position

/-- The edges that a search of the index finds in a box. -/
def edgesInBox (search : TreeSearch) (bounds : Rect) : List (Edge (Node OsmEntryId Point)) :=
  net.indexEdge.search search bounds

variable {net}

/-- The index shows edges of the graph. -/
theorem indexed_of_mem_edgesInBox (hkeyed : net.discovery.Keyed) {search : TreeSearch}
    {bounds : Rect} {e : Edge (Node OsmEntryId Point)} (h : e ∈ net.edgesInBox search bounds) :
    ∃ a b, net.discovery.indexed a b = some e := by
  have hrow : e ∈ net.edgeRows := RowIndex.mem_of_mem_search h
  obtain ⟨⟨s, t, weight, id⟩, hmem, he⟩ := List.mem_filterMap.mp hrow
  simp only [Option.bind_eq_bind, Option.bind_eq_some_iff] at he
  obtain ⟨source, hsource, target, htarget, he⟩ := he
  cases he
  refine ⟨s, t, (Discovery.indexed_eq_some_iff hkeyed).mpr ⟨hsource, htarget, id, ?_, rfl⟩⟩
  exact GraphMap.mem_allEdges_iff.mp hmem

/-- The nodes of a network built are found under their identifiers. -/
theorem keyed_fromPbf (parsers : TagParsers L A) (elements : List ProcessedElement) :
    (fromPbf parsers elements).discovery.Keyed := by
  intro id n hn
  have hmem := IndexMap.mem_of_get?_ofList hn
  obtain ⟨n', -, heq⟩ := List.mem_map.mp hmem
  cases heq
  rfl

end OsmNetwork

end Routers
