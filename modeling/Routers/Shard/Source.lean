import Routers.Shard.Composite

/-!
# Shards of a road network

A network built from a map file is cut into shards through the generic source interface,
which hands out each edge with its weight and its metadata, but neither with its direction
nor with the road it belongs to.  The shard fills both in: all edges run forwards, and all
edges that leave a node share the metadata of the first of them.

## Main definitions

* `OsmNetwork.source` — a network as a source of shards.
* `OsmNetwork.Preserved` — a shard holds an edge as the network does.

## Main results

* `OsmNetwork.edgeWeight_fromSource_iff`, `OsmNetwork.get?_metas_fromSource` — what the shard holds.
* `OsmNetwork.preserved_iff` — **when a shard preserves the edges between the nodes it admits.**

## References

`src/libs/routers_shard/bin/generate-shards.rs` and `src/libs/routers_shard/src/network.rs`.
-/

namespace Routers

namespace OsmNetwork

open ShardedNetwork

variable {L A S : Type} (net : OsmNetwork L A)

/-- A network as a source of shards; an edge without metadata is left out. -/
def source : ShardSource OsmEntryId (OsmEdgeMetadata L A) where
  nodes := net.hash.values.map fun n => (n.id, n.position)
  edges := net.graph.allEdges.filterMap fun edge =>
    (net.metas.get? edge.2.2.2.index).map fun data => (edge.1, edge.2.1, edge.2.2.1, data)

variable {net}

theorem mem_source_edges_iff {a b : OsmEntryId} {weight : ℕ} {data : OsmEdgeMetadata L A} :
    (a, b, weight, data) ∈ net.source.edges ↔ ∃ id,
      net.graph.edgeWeight a b = some (weight, id) ∧ net.metas.get? id.index = some data := by
  simp only [source, List.mem_filterMap, Option.map_eq_some_iff, Prod.mk.injEq, Prod.exists]
  constructor
  · rintro ⟨a', b', weight', id, hmem, data', hdata, rfl, rfl, rfl, rfl⟩
    exact ⟨id, GraphMap.mem_allEdges_iff.mp hmem, hdata⟩
  · rintro ⟨id, hedge, hdata⟩
    exact ⟨a, b, weight, id, GraphMap.mem_allEdges_iff.mpr hedge, data, hdata, rfl, rfl, rfl, rfl⟩

/-- The source has no parallel edges. -/
theorem nodup_source_edges : (net.source.edges.map fun e => (e.1, e.2.1)).Nodup := by
  have hkeys : (net.graph.allEdges.map fun e => (e.1, e.2.1)).Nodup := by
    have := net.graph.edges.keys_nodup
    rwa [GraphMap.allEdges, List.map_map]
  refine hkeys.sublist ?_
  rw [source, List.map_filterMap]
  -- each edge is left out or keeps its ends
  have hfilter : ∀ l : List (OsmEntryId × OsmEntryId × ℕ × DirectionAwareEdgeId OsmEntryId),
      List.Sublist (l.filterMap fun edge => ((net.metas.get? edge.2.2.2.index).map
        fun data => (edge.1, edge.2.1, edge.2.2.1, data)).map fun e => (e.1, e.2.1))
        (l.map fun e => (e.1, e.2.1)) := by
    intro l
    induction l with
    | nil => exact List.Sublist.slnil
    | cons edge l ih =>
      cases hdata : net.metas.get? edge.2.2.2.index with
      | none =>
        rw [List.filterMap_cons_none (by rw [hdata]; rfl)]
        exact ih.cons _
      | some data =>
        rw [List.filterMap_cons_some (b := (edge.1, edge.2.1)) (by rw [hdata]; rfl)]
        exact ih.cons_cons _
  exact hfilter _

section Shard

variable [DecidableEq S] (net) (strategy : ShardingStrategy S) (selection : Selection S)

/-- **The edges of a shard** that leave an admitted node: those of the network with metadata
whose target lies somewhere, all of them forward and along their source. -/
theorem edgeWeight_fromSource_iff {a b : OsmEntryId} (ha : Admits net.source strategy selection a)
    (w : ℕ × DirectionAwareEdgeId OsmEntryId) :
    (fromSource net.source strategy selection).graph.edgeWeight a b = some w ↔
      ∃ weight data, (a, b, weight, data) ∈ net.source.edges ∧
        (position net.source b).isSome ∧ w = (weight, DirectionAwareEdgeId.new a) := by
  obtain ⟨hinv, hiff, hedges, -⟩ := inv_admitted net.source strategy selection
  exact Assembly.edgeWeight_scan hinv nodup_source_edges ((hiff a).mpr ha) (hedges a b) w

/-- The metadata that the source gives first for an edge leaving a node. -/
def firstMeta (a : OsmEntryId) : Option (OsmEdgeMetadata L A) :=
  (net.source.edges.find? fun e => decide (e.1 = a) && (position net.source e.2.1).isSome).map
    fun e => e.2.2.2

/-- **The metadata of a shard**, for an admitted node: those of the first edge leaving it. -/
theorem get?_metas_fromSource {a : OsmEntryId} (ha : Admits net.source strategy selection a) :
    (fromSource net.source strategy selection).metas.get? a = firstMeta net a := by
  obtain ⟨hinv, hiff, -, hmetas⟩ := inv_admitted net.source strategy selection
  exact Assembly.get?_metas_scan hinv net.source.edges ((hiff a).mpr ha) (hmetas a)

/-- The shard holds an edge of the network with its weight, its direction and its metadata,
and open to the same runtimes whatever decides about access. -/
def Preserved (shard : ShardedNetwork OsmEntryId (OsmEdgeMetadata L A) S) (a b : OsmEntryId)
    (weight : ℕ) (id : DirectionAwareEdgeId OsmEntryId) (data : OsmEdgeMetadata L A) : Prop :=
  ∃ id', shard.graph.edgeWeight a b = some (weight, id') ∧ id'.direction = id.direction ∧
    shard.dataPlane.metadata id'.index = some data ∧
    ∀ (R : Type) (accessible : OsmEdgeMetadata L A → R → Direction → Bool) (runtime : R),
      shard.dataPlane.isOpen accessible runtime id' = net.dataPlane.isOpen accessible runtime id

/-- An edge of the source, between nodes that the selection admits. -/
structure AdmittedEdge (a b : OsmEntryId) (weight : ℕ) (id : DirectionAwareEdgeId OsmEntryId)
    (data : OsmEdgeMetadata L A) : Prop where
  source_admitted : Admits net.source strategy selection a
  target_admitted : Admits net.source strategy selection b
  edgeWeight_eq : net.graph.edgeWeight a b = some (weight, id)
  metadata_eq : net.metas.get? id.index = some data

/-- The shard preserves every edge between nodes that the selection admits. -/
def PreservesEdges : Prop :=
  ∀ a b weight id data, AdmittedEdge net strategy selection a b weight id data →
    Preserved net (fromSource net.source strategy selection) a b weight id data

/-- **A shard preserves the edges between the nodes it admits** exactly when all of them run
forwards along their roads, and have the metadata of the first edge out of their source. -/
theorem preservesEdges_iff : PreservesEdges net strategy selection ↔
    ∀ a b weight id data, AdmittedEdge net strategy selection a b weight id data →
      id.direction = .outgoing ∧ firstMeta net a = some data := by
  refine forall₅_congr fun a b weight id data => forall_congr' fun h => ?_
  have hshard : (fromSource net.source strategy selection).graph.edgeWeight a b
      = some (weight, DirectionAwareEdgeId.new a) := by
    obtain ⟨pos, hpos, -⟩ := h.target_admitted
    exact (edgeWeight_fromSource_iff net strategy selection h.source_admitted _).mpr
      ⟨weight, data, mem_source_edges_iff.mpr ⟨id, h.edgeWeight_eq, h.metadata_eq⟩,
        Option.isSome_of_eq_some hpos, rfl⟩
  have hmeta := get?_metas_fromSource net strategy selection h.source_admitted
  constructor
  · rintro ⟨id', hedge, hdirection, hdata, -⟩
    cases hshard.symm.trans hedge
    exact ⟨hdirection.symm, hmeta.symm.trans hdata⟩
  · rintro ⟨hdirection, hfirst⟩
    refine ⟨_, hshard, hdirection.symm, hmeta.trans hfirst, fun R accessible runtime => ?_⟩
    have hdata : (fromSource net.source strategy selection).dataPlane.metadata
        (DirectionAwareEdgeId.new a).index = some data := hmeta.trans hfirst
    have hnet : net.dataPlane.metadata id.index = some data := h.metadata_eq
    unfold DataPlane.isOpen
    rw [hdata, hnet, hdirection]
    rfl

end Shard

/-- A street open both ways that meets a motorway. -/
def junction : OsmNetwork Unit Unit := fromPbf bareParsers
  [.node ⟨⟨1⟩, ⟨0, 0⟩⟩, .node ⟨⟨2⟩, ⟨1, 0⟩⟩, .node ⟨⟨3⟩, ⟨0, 1⟩⟩,
    .way ⟨⟨7⟩, [⟨1⟩, ⟨2⟩], ⟨[("highway", "residential")]⟩⟩,
    .way ⟨⟨8⟩, [⟨1⟩, ⟨3⟩], ⟨[("highway", "motorway"), ("oneway", "yes")]⟩⟩]

/-- A world in a single cell. -/
def wholeWorld : ShardingStrategy Unit where
  locate _ := ()
  bounds _ := ⟨⟨-180, -90⟩, ⟨180, 90⟩⟩
  neighbours _ := []

/-- In the shard of the junction, the edge along the motorway has the metadata of the street. -/
theorem junction_not_preservesEdges :
    ¬ PreservesEdges junction wholeWorld ⟨(), [()], none⟩ := by
  intro h
  obtain ⟨id', hedge, -, hdata, -⟩ :=
    h ⟨1⟩ ⟨3⟩ 1 ⟨⟨8⟩, .outgoing⟩ ⟨none, none, [], some .motorway⟩
      ⟨⟨⟨0, 0⟩, by decide +kernel, rfl⟩, ⟨⟨0, 1⟩, by decide +kernel, rfl⟩, by decide +kernel,
        by decide +kernel⟩
  have hshard : (fromSource junction.source wholeWorld ⟨(), [()], none⟩).graph.edgeWeight ⟨1⟩ ⟨3⟩
      = some (1, ⟨⟨1⟩, .outgoing⟩) := by decide +kernel
  cases hshard.symm.trans hedge
  revert hdata
  decide +kernel

end OsmNetwork

end Routers
