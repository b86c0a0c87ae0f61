import Routers.Codec.Discovery
import Routers.Library.FirstSeen
import Routers.Shard.Composite

/-!
# Discovery in shards and composites

The edge index of a shard holds pairs of identifiers, which are looked up as they are found.  A
composite searches one shard after the other, and passes over what an earlier one has shown.

## Main definitions

* `ShardedNetwork.edgesInBox`, `ShardedNetwork.nodesInBox` — the view through the index of a shard.
* `MultiShardNetwork.edgesInBox`, `MultiShardNetwork.nodesInBox` — and through those of several.

## Main results

* `ShardedNetwork.outgoing_fromSource` — the edges of a shard built run along their roads.
* `views_agree_iff` — **when the two views of an edge agree**, for each kind of network.

## References

`src/libs/routers_shard/src/network.rs` and `src/libs/routers_shard/src/composite/network.rs`.
-/

namespace Routers

variable {E M S : Type} [DecidableEq E]

namespace ShardedNetwork

variable (net : ShardedNetwork E M S)

/-- The node of an identifier. -/
def node (id : E) : Option (Node E Point) := net.hash.get? id

/-- The shard as a network that is looked about in. -/
def discovery : Discovery E := ⟨net.graph, net.node⟩

/-- The edge from a node to another. -/
def edge (source target : E) : Option (Edge E) := net.discovery.edge source target

/-- An edge with its nodes for their identifiers, if both are known. -/
def fatten (e : Edge E) : Option (Edge (Node E Point)) := net.discovery.fatten e

/-- The rows of the edge index: the ends of the edges that both have a position. -/
def edgeRows : List (E × E) :=
  (net.graph.allEdges.filter fun entry =>
    net.hash.contains entry.1 && net.hash.contains entry.2.1).map fun entry => (entry.1, entry.2.1)

/-- The node index as it is rebuilt. -/
def index : RowIndex E := nodeIndex net.hash

/-- The edge index as it is rebuilt. -/
def indexEdge : RowIndex (E × E) :=
  RowIndex.build net.edgeRows fun ends =>
    envelopeOf (positionOf net.hash ends.1) (positionOf net.hash ends.2)

/-- The edges that a search of the index finds in a box. -/
def edgesInBox (search : TreeSearch) (bounds : Rect) : List (Edge (Node E Point)) :=
  (net.indexEdge.search search bounds).filterMap fun ends => net.discovery.indexed ends.1 ends.2

/-- The nodes that a search of the index finds in a box. -/
def nodesInBox (search : TreeSearch) (bounds : Rect) : List (Node E Point) :=
  (net.index.search search bounds).filterMap net.hash.get?

variable {net}

variable [DecidableEq S] (source : ShardSource E M) (strategy : ShardingStrategy S)
  (selection : Selection S)

/-- The nodes of a shard built are found under their identifiers. -/
theorem keyed_fromSource : (fromSource source strategy selection).discovery.Keyed :=
  fun id n hn => ((inv_assemble source strategy selection).hash_eq id n hn).1

/-- **The edges of a shard built run along their roads.** -/
theorem outgoing_fromSource {a b : E} {data : ℕ × DirectionAwareEdgeId E}
    (h : (fromSource source strategy selection).graph.edgeWeight a b = some data) :
    data.2.direction = .outgoing := by
  have hrun : ∀ (l : List (E × E × ℕ × M)) {s : Assembly E M},
      s.Inv (IndexMap.ofList source.nodes) →
      (∀ a b data, s.graph.edgeWeight a b = some data → data.2.direction = .outgoing) →
      ∀ a b data, (l.foldl (Assembly.scanEdge (IndexMap.ofList source.nodes)) s).graph.edgeWeight
        a b = some data → data.2.direction = .outgoing := by
    intro l
    induction l with
    | nil => exact fun _ hbefore => hbefore
    | cons entry l ih =>
      intro s hinv hbefore
      refine ih (hinv.scanEdge entry) fun a b data hdata => ?_
      rcases Assembly.scanEdge_cases hinv entry with ⟨hskip, -⟩ | hlinked
      · rw [hskip] at hdata
        exact hbefore a b data hdata
      · rw [hlinked.edgeWeight_eq] at hdata
        split_ifs at hdata
        · cases hdata
          rfl
        · exact hbefore a b data hdata
  obtain ⟨hinv, -, hnone, -⟩ := inv_admitted source strategy selection
  exact hrun source.edges hinv (fun a b data hdata => by rw [hnone] at hdata; cases hdata) a b data h

end ShardedNetwork

namespace MultiShardNetwork

variable (net : MultiShardNetwork E M S)

/-- The composite as a network that is looked about in. -/
def discovery : Discovery E := ⟨net.graph, net.node⟩

/-- The edge from a node to another. -/
def edge (source target : E) : Option (Edge E) := net.discovery.edge source target

/-- An edge with its nodes for their identifiers, if both are known. -/
def fatten (e : Edge E) : Option (Edge (Node E Point)) := net.discovery.fatten e

/-- Pairs that an earlier shard has shown are passed over before they are looked up. -/
def edgesInBox (search : TreeSearch) (bounds : Rect) : List (Edge (Node E Point)) :=
  ((net.shards.flatMap fun shard => shard.indexEdge.search search bounds).firstSeen id []).filterMap
    fun ends => net.discovery.indexed ends.1 ends.2

/-- Nodes that an earlier shard has shown are passed over after they are looked up. -/
def nodesInBox (search : TreeSearch) (bounds : Rect) : List (Node E Point) :=
  ((net.shards.flatMap fun shard => shard.index.search search bounds).filterMap
    net.node).firstSeen Node.id []

variable {net}

theorem keyed_of_shards (h : ∀ shard ∈ net.shards, shard.discovery.Keyed) :
    net.discovery.Keyed := by
  intro id n hn
  obtain ⟨shard, hshard, hget⟩ := List.exists_of_findSome?_eq_some hn
  exact h shard hshard id n hget

end MultiShardNetwork

/-- **When the two views of an edge agree.**  In every network whose nodes are found under their
identifiers, and for every edge an index shows in a rectangle, the edge by the identifiers of its
ends is the one that the shown edge is thinned to, and fattened again is the shown edge, exactly
if the graph has the edge run along its road. -/
theorem views_agree_iff {L A : Type} (search : TreeSearch) (bounds : Rect) :
    (∀ (net : OsmNetwork L A), net.discovery.Keyed → ∀ e ∈ net.edgesInBox search bounds,
      (net.discovery.Agrees e ↔ ∀ data, net.graph.edgeWeight e.source.id e.target.id = some data →
        data.2.direction = .outgoing)) ∧
    (∀ (net : ShardedNetwork E M S), net.discovery.Keyed → ∀ e ∈ net.edgesInBox search bounds,
      (net.discovery.Agrees e ↔ ∀ data, net.graph.edgeWeight e.source.id e.target.id = some data →
        data.2.direction = .outgoing)) ∧
    ∀ (net : MultiShardNetwork E M S), (∀ shard ∈ net.shards, shard.discovery.Keyed) →
      ∀ e ∈ net.edgesInBox search bounds,
        (net.discovery.Agrees e ↔
          ∀ data, net.graph.edgeWeight e.source.id e.target.id = some data →
            data.2.direction = .outgoing) := by
  refine ⟨fun net hkeyed e he => ?_, fun net hkeyed e he => ?_, fun net hkeyed e he => ?_⟩
  · obtain ⟨a, b, hab⟩ := OsmNetwork.indexed_of_mem_edgesInBox hkeyed he
    exact Discovery.agrees_iff hkeyed hab
  · obtain ⟨a, b, hab⟩ := Discovery.exists_indexed he
    exact Discovery.agrees_iff hkeyed hab
  · obtain ⟨a, b, hab⟩ := Discovery.exists_indexed he
    exact Discovery.agrees_iff (MultiShardNetwork.keyed_of_shards hkeyed) hab

/-- A source of one edge. -/
def laneSource : ShardSource ℕ Unit := ⟨[(1, ⟨0, 0⟩), (2, ⟨1, 0⟩)], [(1, 2, 5, ())]⟩

/-- One cell everywhere. -/
def everywhere : ShardingStrategy Unit := ⟨fun _ => (), fun _ => ⟨⟨0, 0⟩, ⟨1, 1⟩⟩, fun _ => []⟩

/-- A street of one block, by its nodes and the way along them. -/
def street (tags : List (String × String)) : OsmNetwork Unit Unit :=
  OsmNetwork.fromPbf bareParsers
    [.node ⟨⟨1⟩, ⟨0, 0⟩⟩, .node ⟨⟨2⟩, ⟨1, 0⟩⟩, .way ⟨⟨7⟩, [⟨1⟩, ⟨2⟩], ⟨tags⟩⟩]

/-- What lies between the ends of the street. -/
def block : Rect := ⟨⟨0, 0⟩, ⟨1, 1⟩⟩

/-- The edge along the street, that of a shard and that of a composite of it with itself. -/
theorem views_agree_lane :
    (street [("highway", "residential")]).discovery.Agrees
      ⟨⟨⟨1⟩, ⟨0, 0⟩⟩, ⟨⟨2⟩, ⟨1, 0⟩⟩, 10, ⟨⟨⟨7⟩, ⟨0, 0⟩⟩, .outgoing⟩⟩ ∧
    (∀ e ∈ (ShardedNetwork.fromSource laneSource everywhere ⟨(), [()], none⟩).edgesInBox
        scanSearch block,
      (ShardedNetwork.fromSource laneSource everywhere ⟨(), [()], none⟩).discovery.Agrees e) ∧
    ∀ e ∈ (MultiShardNetwork.new (List.replicate 2
        (ShardedNetwork.fromSource laneSource everywhere ⟨(), [()], none⟩))).edgesInBox
        scanSearch block,
      (MultiShardNetwork.new (List.replicate 2
        (ShardedNetwork.fromSource laneSource everywhere ⟨(), [()], none⟩))).discovery.Agrees e := by
  obtain ⟨hosm, hshard, hmulti⟩ :=
    views_agree_iff (E := ℕ) (M := Unit) (S := Unit) (L := Unit) (A := Unit) scanSearch block
  refine ⟨(hosm _ (OsmNetwork.keyed_fromPbf _ _) _ (by decide +kernel)).mpr fun data hdata => ?_,
    fun e he => (hshard _ (ShardedNetwork.keyed_fromSource _ _ _) e he).mpr fun data hdata =>
      ShardedNetwork.outgoing_fromSource _ _ _ hdata,
    fun e he => (hmulti _ (fun shard hmem => ?_) e he).mpr fun data hdata => ?_⟩
  · have hedge : (street [("highway", "residential")]).graph.edgeWeight ⟨1⟩ ⟨2⟩
        = some (10, ⟨⟨7⟩, .outgoing⟩) := by decide +kernel
    cases hedge.symm.trans hdata
    rfl
  · rw [List.eq_of_mem_replicate hmem]
    exact ShardedNetwork.keyed_fromSource _ _ _
  · obtain ⟨shard, hmem, hw⟩ := MultiShardNetwork.exists_shard_of_edgeWeight hdata
    rw [List.eq_of_mem_replicate hmem] at hw
    exact ShardedNetwork.outgoing_fromSource _ _ _ hw

/-- **The way back along a two-way street** is shown as such, and thinned to the way there. -/
theorem street_not_agrees : (street [("highway", "residential")]).dataPlane.Placed ∧
    ∃ e ∈ (street [("highway", "residential")]).edgesInBox scanSearch block,
      ¬ (street [("highway", "residential")]).discovery.Agrees e := by
  constructor
  · intro a b w hw
    have hedges : (street [("highway", "residential")]).graph.allEdges
        = [(⟨1⟩, ⟨2⟩, 10, ⟨⟨7⟩, .outgoing⟩), (⟨2⟩, ⟨1⟩, 10, ⟨⟨7⟩, .incoming⟩)] := by
      decide +kernel
    have hmem : (a, b, w) ∈ (street [("highway", "residential")]).graph.allEdges :=
      GraphMap.mem_allEdges_iff.mpr hw
    rw [hedges] at hmem
    simp only [List.mem_cons, Prod.mk.injEq, List.not_mem_nil, or_false] at hmem
    rcases hmem with ⟨rfl, rfl, -⟩ | ⟨rfl, rfl, -⟩ <;> decide +kernel
  · refine ⟨⟨⟨⟨2⟩, ⟨1, 0⟩⟩, ⟨⟨1⟩, ⟨0, 0⟩⟩, 10, ⟨⟨⟨7⟩, ⟨0, 0⟩⟩, .incoming⟩⟩, by decide +kernel, ?_⟩
    rintro ⟨x, hx, hthin, -⟩
    have hedge : (street [("highway", "residential")]).discovery.edge ⟨2⟩ ⟨1⟩
        = some ⟨⟨2⟩, ⟨1⟩, 10, ⟨⟨7⟩, .incoming⟩⟩ := by decide +kernel
    cases hedge.symm.trans hx
    cases hthin

end Routers
