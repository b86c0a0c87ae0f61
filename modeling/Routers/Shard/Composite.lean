import Routers.Shard.Network

/-!
# Composite networks

A composite is the union of its shards: one graph with the nodes and edges of all, while
positions and metadata are looked up in the shards, the first that has one.

## Main definitions

* `MultiShardNetwork.new` — the composite of a list of shards.

## Main results

* `MultiShardNetwork.edgeWeight_new_isSome_iff` — the composite has the edges of its shards.
* `MultiShardNetwork.placed_new` — a composite of placed shards is placed.
* `searchSafe_iff` — **which networks a search may be run on**, for each way to build one.

## References

`src/libs/routers_shard/src/composite/mod.rs`, `src/libs/routers_shard/src/composite/network.rs` and
`src/libs/routers_codec/src/osm/graph.rs`.
-/

namespace Routers

/-- Several shards as one network. -/
structure MultiShardNetwork (E M S : Type) where
  shards : List (ShardedNetwork E M S)
  graph : GraphStructure E

namespace MultiShardNetwork

variable {E M S : Type} [DecidableEq E]

/-- Add the nodes and edges of a shard; nodes without edges count, too. -/
def addShard (graph : GraphStructure E) (shard : ShardedNetwork E M S) : GraphStructure E :=
  (shard.graph.nodes.foldl GraphMap.addNode graph).addEdges shard.graph.allEdges

/-- The network of these shards. -/
def new (shards : List (ShardedNetwork E M S)) : MultiShardNetwork E M S where
  shards := shards
  graph := shards.foldl addShard GraphMap.empty

/-- The node of an identifier, from the first shard that has it. -/
def node (net : MultiShardNetwork E M S) (id : E) : Option (Node E Point) :=
  net.shards.findSome? fun shard => shard.hash.get? id

/-- The network as a search reads it. -/
def dataPlane (net : MultiShardNetwork E M S) : DataPlane E M where
  graph := net.graph
  point id := (net.node id).map Node.position
  metadata id := net.shards.findSome? fun shard => shard.metas.get? id

theorem edgeWeight_foldl_addNode (nodes : List E) (graph : GraphStructure E) (a b : E) :
    (nodes.foldl GraphMap.addNode graph).edgeWeight a b = graph.edgeWeight a b := by
  induction nodes generalizing graph with
  | nil => rfl
  | cons n nodes ih => rw [List.foldl_cons, ih, GraphMap.edgeWeight_addNode]

theorem edgeWeight_foldl_addShard_isSome_iff (shards : List (ShardedNetwork E M S))
    (graph : GraphStructure E) (a b : E) :
    ((shards.foldl addShard graph).edgeWeight a b).isSome ↔ (graph.edgeWeight a b).isSome ∨
      ∃ shard ∈ shards, (shard.graph.edgeWeight a b).isSome := by
  induction shards generalizing graph with
  | nil => simp
  | cons shard shards ih =>
    have hshard : (∃ w, (a, b, w) ∈ shard.graph.allEdges) ↔
        (shard.graph.edgeWeight a b).isSome := by
      simp only [GraphMap.mem_allEdges_iff, Option.isSome_iff_exists]
    rw [List.foldl_cons, ih, addShard, GraphMap.edgeWeight_addEdges_isSome_iff,
      edgeWeight_foldl_addNode, hshard, or_assoc]
    simp only [List.mem_cons, exists_eq_or_imp]

/-- **The composite has the edges of its shards.** -/
theorem edgeWeight_new_isSome_iff (shards : List (ShardedNetwork E M S)) (a b : E) :
    ((new shards).graph.edgeWeight a b).isSome ↔
      ∃ shard ∈ shards, (shard.graph.edgeWeight a b).isSome := by
  rw [new, edgeWeight_foldl_addShard_isSome_iff]
  simp

/-- An edge of the composite has the weight that it has in a shard. -/
theorem exists_shard_of_edgeWeight {shards : List (ShardedNetwork E M S)} {a b : E}
    {w : ℕ × DirectionAwareEdgeId E} (h : (new shards).graph.edgeWeight a b = some w) :
    ∃ shard ∈ shards, shard.graph.edgeWeight a b = some w := by
  have hrun : ∀ (shards : List (ShardedNetwork E M S)) (graph : GraphStructure E),
      (shards.foldl addShard graph).edgeWeight a b = some w →
        graph.edgeWeight a b = some w ∨ ∃ shard ∈ shards, shard.graph.edgeWeight a b = some w := by
    intro shards
    induction shards with
    | nil => exact fun _ h => .inl h
    | cons shard shards ih =>
      intro graph h
      rcases ih _ h with hshard | ⟨other, hother, hw⟩
      · rcases GraphMap.edgeWeight_addEdges_cases hshard with hmem | hbefore
        · exact .inr ⟨shard, List.mem_cons_self, GraphMap.mem_allEdges_iff.mp hmem⟩
        · rw [edgeWeight_foldl_addNode] at hbefore
          exact .inl hbefore
      · exact .inr ⟨other, List.mem_cons_of_mem _ hother, hw⟩
  exact (hrun shards GraphMap.empty h).resolve_left (by simp)

/-- What lies somewhere in a shard does so in the composite. -/
theorem point_new_isSome {shards : List (ShardedNetwork E M S)} {shard : ShardedNetwork E M S}
    (hshard : shard ∈ shards) {id : E} (h : (shard.dataPlane.point id).isSome) :
    ((new shards).dataPlane.point id).isSome := by
  simp only [ShardedNetwork.dataPlane, Option.isSome_map] at h
  simp only [dataPlane, node, new, Option.isSome_map, List.findSome?_isSome_iff]
  exact ⟨shard, hshard, h⟩

/-- A composite of placed shards is placed. -/
theorem placed_new {shards : List (ShardedNetwork E M S)}
    (h : ∀ shard ∈ shards, shard.dataPlane.Placed) : (new shards).dataPlane.Placed := by
  intro a b w hw
  obtain ⟨shard, hshard, hedge⟩ :=
    (edgeWeight_new_isSome_iff shards a b).mp (Option.isSome_of_eq_some hw)
  obtain ⟨w', hw'⟩ := Option.isSome_iff_exists.mp hedge
  obtain ⟨ha, hb⟩ := h shard hshard a b w' hw'
  exact ⟨point_new_isSome hshard ha, point_new_isSome hshard hb⟩

end MultiShardNetwork

/-- **Which networks a search may be run on.**  Built from a map file, one whose elements
contain every node that an edge ends at, and no other; built from a source, every shard; and
every composite of such shards. -/
theorem searchSafe_iff {E M S L A : Type} [DecidableEq E] [DecidableEq S] (parsers : TagParsers L A) :
    (∀ elements, (OsmNetwork.fromPbf parsers elements).dataPlane.SearchSafe ↔ Resolved elements) ∧
      (∀ (source : ShardSource E M) (strategy : ShardingStrategy S) (selection : Selection S),
        (ShardedNetwork.fromSource source strategy selection).dataPlane.SearchSafe) ∧
      ∀ builds : List (ShardSource E M × ShardingStrategy S × Selection S),
        (MultiShardNetwork.new (builds.map fun build =>
          ShardedNetwork.fromSource build.1 build.2.1 build.2.2)).dataPlane.SearchSafe := by
  simp only [← DataPlane.placed_iff]
  refine ⟨OsmNetwork.placed_fromPbf_iff parsers, ShardedNetwork.placed_fromSource,
    fun builds => MultiShardNetwork.placed_new fun shard hshard => ?_⟩
  obtain ⟨build, -, rfl⟩ := List.mem_map.mp hshard
  exact ShardedNetwork.placed_fromSource _ _ _

/-- Tags of which only the road class is read. -/
def bareParsers : TagParsers Unit Unit := ⟨fun _ => none, fun _ => []⟩

/-- An extract with a road whose far end it does not contain. -/
def clippedExtract : List ProcessedElement :=
  [.node ⟨⟨1⟩, ⟨0, 0⟩⟩, .way ⟨⟨7⟩, [⟨1⟩, ⟨2⟩], ⟨[("highway", "residential")]⟩⟩]

/-- From the near end of that road, the far end is read and not found. -/
theorem clippedExtract_not_searchSafe :
    ¬ (OsmNetwork.fromPbf bareParsers clippedExtract).dataPlane.SearchSafe := by
  intro h
  have hedge : (OsmNetwork.fromPbf bareParsers clippedExtract).graph.edgeWeight ⟨1⟩ ⟨2⟩
      = some (10, ⟨⟨7⟩, .outgoing⟩) := by decide +kernel
  have hreads := (h ⟨1⟩ ⟨_, _, _, hedge, .inl rfl⟩).2 (⟨1⟩, ⟨2⟩, 10, ⟨⟨7⟩, .outgoing⟩)
    (by decide +kernel)
  revert hreads
  decide +kernel

end Routers
