import Routers.Shard.Discovery

/-!
# A composite is the union of its shards

Shards overlap, so that a node or an edge is held by several of them.  Where these agree, the
composite answers as their union would: nothing is lost, and nothing is shown twice.

## Main definitions

* `ShardedNetwork.WellFormed` — the ends of a shard's edges are in it, under their identifiers.
* `UnionNode`, `UnionEdge`, `UnionFat` — the nodes and the edges of the union.
* `SharedAlike` — the shards agree on what they share.

## Main results

* `ShardedNetwork.wellFormed_fromSource`, `sharedAlike_fromSource` — shards are built so, and agree
  if they are of one source.
* `MultiShardNetwork.node_new_iff`, `MultiShardNetwork.edgeWeight_new_iff` — the composite looks up
  the nodes and the edges of the union.
* `composite_union` — **the composite is the union.**

## References

`src/libs/routers_shard/src/composite/network.rs`.
-/

namespace Routers

variable {E M S : Type} [DecidableEq E]

/-! ### The union -/

/-- The ends of the edges of a shard are in it, and its nodes are under their identifiers. -/
structure ShardedNetwork.WellFormed (net : ShardedNetwork E M S) : Prop where
  keyed : net.discovery.Keyed
  ends_mem : ∀ a b data, net.graph.edgeWeight a b = some data →
    (net.node a).isSome ∧ (net.node b).isSome

theorem ShardedNetwork.wellFormed_fromSource [DecidableEq S] (source : ShardSource E M)
    (strategy : ShardingStrategy S) (selection : Selection S) :
    (fromSource source strategy selection).WellFormed :=
  ⟨keyed_fromSource source strategy selection,
    (inv_assemble source strategy selection).ends_taken⟩

/-- A node of the union. -/
def UnionNode (shards : List (ShardedNetwork E M S)) (n : Node E Point) : Prop :=
  ∃ shard ∈ shards, shard.node n.id = some n

/-- An edge of the union, with its weight and its road. -/
def UnionEdge (shards : List (ShardedNetwork E M S)) (a b : E)
    (data : ℕ × DirectionAwareEdgeId E) : Prop :=
  ∃ shard ∈ shards, shard.graph.edgeWeight a b = some data

/-- An edge of the union with its nodes in place. -/
structure UnionFat (shards : List (ShardedNetwork E M S)) (e : Edge (Node E Point)) : Prop where
  source : UnionNode shards e.source
  target : UnionNode shards e.target
  edge : ∃ id : DirectionAwareEdgeId E, UnionEdge shards e.source.id e.target.id (e.weight, id) ∧
    e.id = ⟨Discovery.placeholder id.index, id.direction⟩

/-- The shards agree on the positions of the nodes and the data of the edges that they share. -/
structure SharedAlike (shards : List (ShardedNetwork E M S)) : Prop where
  position_eq : ∀ shard ∈ shards, ∀ shard' ∈ shards, ∀ id n n', shard.node id = some n →
    shard'.node id = some n' → n.position = n'.position
  data_eq : ∀ shard ∈ shards, ∀ shard' ∈ shards, ∀ a b data data',
    shard.graph.edgeWeight a b = some data → shard'.graph.edgeWeight a b = some data' → data = data'

/-! ### Shards of one source -/

/-- What the last of the listed edges between two nodes carries. -/
def lastData (l : List (E × E × ℕ × M)) (a b : E) : Option (ℕ × DirectionAwareEdgeId E) :=
  (l.reverse.find? fun e => decide ((e.1, e.2.1) = (a, b))).map fun e =>
    (e.2.2.1, DirectionAwareEdgeId.new e.1)

theorem lastData_append_singleton (l : List (E × E × ℕ × M)) (entry : E × E × ℕ × M) (a b : E) :
    lastData (l ++ [entry]) a b = if (entry.1, entry.2.1) = (a, b)
      then some (entry.2.2.1, DirectionAwareEdgeId.new entry.1) else lastData l a b := by
  rw [lastData, List.reverse_append, List.reverse_singleton, List.singleton_append, List.find?_cons]
  by_cases hends : (entry.1, entry.2.1) = (a, b)
  · simp [hends]
  · simp [hends, lastData]

/-- An edge that a scan keeps carries what the last one listed between its ends does. -/
theorem Assembly.lastData_of_edgeWeight_scan {allNodes : IndexMap E Point} {s : Assembly E M}
    (hinv : s.Inv allNodes) {a b : E} (hnone : s.graph.edgeWeight a b = none)
    (l : List (E × E × ℕ × M)) {data : ℕ × DirectionAwareEdgeId E}
    (h : (s.scan allNodes l).graph.edgeWeight a b = some data) : lastData l a b = some data := by
  induction l using List.reverseRecOn generalizing data with
  | nil => exact absurd (h.symm.trans hnone) (by simp)
  | append_singleton l entry ih =>
    rw [Assembly.scan_append_singleton] at h
    rw [lastData_append_singleton]
    rcases Assembly.scanEdge_cases (hinv.scan l) entry with ⟨heq, hskip⟩ | hlinked
    · rw [heq] at h
      rw [if_neg ?_, ih h]
      -- where an edge has been kept, no other between its ends is skipped
      intro hends
      obtain ⟨rfl, rfl⟩ := Prod.mk.inj hends
      obtain ⟨hsource, htarget⟩ := (hinv.scan l).ends_taken _ _ data h
      obtain ⟨n, hn⟩ := IndexMap.contains_eq_true_iff.mp htarget
      rcases hskip with hfree | hunknown
      · rw [hsource] at hfree
        cases hfree
      · rw [((hinv.scan l).hash_eq _ n hn).2] at hunknown
        cases hunknown
    · rw [hlinked.edgeWeight_eq] at h
      split_ifs at h ⊢
      · exact h
      · exact ih h

/-- **Shards of one source agree** on what they share. -/
theorem sharedAlike_fromSource [DecidableEq S] (source : ShardSource E M)
    (builds : List (ShardingStrategy S × Selection S)) :
    SharedAlike (builds.map fun build => ShardedNetwork.fromSource source build.1 build.2) := by
  constructor
  · intro shard hshard shard' hshard' id n n' hn hn'
    obtain ⟨build, -, rfl⟩ := List.mem_map.mp hshard
    obtain ⟨build', -, rfl⟩ := List.mem_map.mp hshard'
    have hposition := ((ShardedNetwork.inv_assemble source build.1 build.2).hash_eq id n hn).2
    have hposition' := ((ShardedNetwork.inv_assemble source build'.1 build'.2).hash_eq id n' hn').2
    exact Option.some.inj (hposition.symm.trans hposition')
  · intro shard hshard shard' hshard' a b data data' hdata hdata'
    have hlast : ∀ (build : ShardingStrategy S × Selection S) (data : ℕ × DirectionAwareEdgeId E),
        (ShardedNetwork.fromSource source build.1 build.2).graph.edgeWeight a b = some data →
          lastData source.edges a b = some data := by
      intro build data hdata
      obtain ⟨hinv, -, hnone, -⟩ := ShardedNetwork.inv_admitted source build.1 build.2
      exact Assembly.lastData_of_edgeWeight_scan hinv (hnone a b) source.edges hdata
    obtain ⟨build, -, rfl⟩ := List.mem_map.mp hshard
    obtain ⟨build', -, rfl⟩ := List.mem_map.mp hshard'
    exact Option.some.inj ((hlast build data hdata).symm.trans (hlast build' data' hdata'))

namespace MultiShardNetwork

/-! ### What is looked up -/

section Lookup

variable {shards : List (ShardedNetwork E M S)}
  (hshards : ∀ shard ∈ shards, shard.WellFormed) (halike : SharedAlike shards)

include hshards in
theorem keyed_new : (new shards).discovery.Keyed :=
  keyed_of_shards fun shard hshard => (hshards shard hshard).keyed

include hshards halike

/-- The composite has the nodes of the union. -/
theorem node_new_iff {id : E} {n : Node E Point} :
    (new shards).node id = some n ↔ n.id = id ∧ UnionNode shards n := by
  constructor
  · intro h
    obtain ⟨shard, hshard, hget⟩ := List.exists_of_findSome?_eq_some h
    have hid := (hshards shard hshard).keyed id n hget
    exact ⟨hid, shard, hshard, hid ▸ hget⟩
  · rintro ⟨rfl, shard, hshard, hget⟩
    -- some shard answers, and as this one does
    have hsome : ((new shards).node n.id).isSome :=
      List.findSome?_isSome_iff.mpr ⟨shard, hshard, Option.isSome_of_eq_some hget⟩
    obtain ⟨n', hn'⟩ := Option.isSome_iff_exists.mp hsome
    obtain ⟨shard', hshard', hget'⟩ := List.exists_of_findSome?_eq_some hn'
    have hposition := halike.position_eq shard' hshard' shard hshard n.id n' n hget' hget
    rw [hn', Node.ext ((hshards shard' hshard').keyed n.id n' hget') hposition]

omit hshards in
/-- The composite has the edges of the union, with their data. -/
theorem edgeWeight_new_iff {a b : E} {data : ℕ × DirectionAwareEdgeId E} :
    (new shards).graph.edgeWeight a b = some data ↔ UnionEdge shards a b data := by
  refine ⟨exists_shard_of_edgeWeight, ?_⟩
  rintro ⟨shard, hshard, hget⟩
  obtain ⟨data', hdata'⟩ := Option.isSome_iff_exists.mp
    ((edgeWeight_new_isSome_iff shards a b).mpr ⟨shard, hshard, Option.isSome_of_eq_some hget⟩)
  obtain ⟨shard', hshard', hget'⟩ := exists_shard_of_edgeWeight hdata'
  rw [hdata', halike.data_eq shard' hshard' shard hshard a b data' data hget' hget]

/-- An edge looked up with its nodes in place is one of the union. -/
theorem indexed_new_iff {a b : E} {e : Edge (Node E Point)} :
    (new shards).discovery.indexed a b = some e ↔
      e.source.id = a ∧ e.target.id = b ∧ UnionFat shards e := by
  rw [Discovery.indexed_eq_some_iff (keyed_new hshards)]
  have hnode : ∀ {id : E} {n : Node E Point}, (new shards).discovery.node id = some n ↔
      n.id = id ∧ UnionNode shards n := node_new_iff hshards halike
  have hedge : ∀ {a b : E} {data : ℕ × DirectionAwareEdgeId E},
      (new shards).discovery.graph.edgeWeight a b = some data ↔ UnionEdge shards a b data :=
    edgeWeight_new_iff halike
  simp only [hnode, hedge]
  constructor
  · rintro ⟨⟨rfl, hsource⟩, ⟨rfl, htarget⟩, id, hdata, hid⟩
    exact ⟨rfl, rfl, hsource, htarget, id, hdata, hid⟩
  · rintro ⟨rfl, rfl, hsource, htarget, id, hdata, hid⟩
    exact ⟨⟨rfl, hsource⟩, ⟨rfl, htarget⟩, id, hdata, hid⟩

end Lookup

/-! ### What is found in a rectangle -/

section Box

variable {shards : List (ShardedNetwork E M S)} {search : TreeSearch} {bounds : Rect}

/-- The pairs a shard's index finds are the ends of its edges whose envelope overlaps. -/
theorem mem_search_indexEdge_iff (hexact : search.Exact) {shard : ShardedNetwork E M S}
    (hshard : shard.WellFormed) {ends : E × E} :
    ends ∈ shard.indexEdge.search search bounds ↔ ∃ data source target,
      shard.graph.edgeWeight ends.1 ends.2 = some data ∧ shard.node ends.1 = some source ∧
        shard.node ends.2 = some target ∧
          (envelopeOf source.position target.position).intersects bounds = true := by
  have hrow : ends ∈ shard.edgeRows ↔ (shard.graph.edgeWeight ends.1 ends.2).isSome := by
    rw [ShardedNetwork.edgeRows, List.mem_map]
    constructor
    · rintro ⟨⟨a, b, data⟩, hmem, rfl⟩
      rw [GraphMap.mem_allEdges_iff.mp (List.mem_of_mem_filter hmem)]
      rfl
    · intro hsome
      obtain ⟨data, hdata⟩ := Option.isSome_iff_exists.mp hsome
      obtain ⟨hsource, htarget⟩ := hshard.ends_mem _ _ data hdata
      refine ⟨(ends.1, ends.2, data), List.mem_filter.mpr ⟨GraphMap.mem_allEdges_iff.mpr hdata, ?_⟩,
        rfl⟩
      exact Bool.and_eq_true_iff.mpr ⟨hsource, htarget⟩
  rw [ShardedNetwork.indexEdge, RowIndex.mem_search_iff hexact, hrow]
  constructor
  · rintro ⟨hsome, hoverlap⟩
    obtain ⟨data, hdata⟩ := Option.isSome_iff_exists.mp hsome
    obtain ⟨hsource, htarget⟩ := hshard.ends_mem _ _ data hdata
    obtain ⟨source, hsource⟩ := Option.isSome_iff_exists.mp hsource
    obtain ⟨target, htarget⟩ := Option.isSome_iff_exists.mp htarget
    refine ⟨data, source, target, hdata, hsource, htarget, ?_⟩
    rwa [positionOf_eq hsource, positionOf_eq htarget] at hoverlap
  · rintro ⟨data, source, target, hdata, hsource, htarget, hoverlap⟩
    refine ⟨Option.isSome_of_eq_some hdata, ?_⟩
    rwa [positionOf_eq hsource, positionOf_eq htarget]

/-- The identifiers a shard's index finds are those of its nodes in the rectangle. -/
theorem mem_search_index_iff (hexact : search.Exact) {shard : ShardedNetwork E M S} {id : E} :
    id ∈ shard.index.search search bounds ↔
      ∃ n, shard.node id = some n ∧ bounds.contains n.position = true := by
  rw [ShardedNetwork.index, nodeIndex, RowIndex.mem_search_iff hexact, IndexMap.mem_keys_iff,
    IndexMap.contains_eq_true_iff]
  constructor
  · rintro ⟨⟨n, hn⟩, hoverlap⟩
    rw [positionOf_eq hn, intersects_envelopeOf_self] at hoverlap
    exact ⟨n, hn, hoverlap⟩
  · rintro ⟨n, hn, hcontains⟩
    refine ⟨⟨n, hn⟩, ?_⟩
    rwa [positionOf_eq hn, intersects_envelopeOf_self]

variable (hshards : ∀ shard ∈ shards, shard.WellFormed) (halike : SharedAlike shards)
include hshards

/-- A pair of identifiers is looked up once. -/
theorem nodup_edgesInBox : (((new shards).edgesInBox search bounds).map fun e =>
    (e.source.id, e.target.id)).Nodup := by
  have hnodup : (((shards.flatMap fun shard =>
      shard.indexEdge.search search bounds).firstSeen id []).map id).Nodup :=
    List.nodup_map_firstSeen
  rw [List.map_id] at hnodup
  rw [edgesInBox, List.map_filterMap]
  refine hnodup.filterMap fun ends ends' pair hpair hpair' => ?_
  -- an edge found has the identifiers it was looked up under
  have hends : ∀ (ends : E × E), pair ∈ ((new shards).discovery.indexed ends.1 ends.2).map
      (fun e => (e.source.id, e.target.id)) → pair = ends := by
    intro ends hpair
    obtain ⟨e, he, rfl⟩ := Option.map_eq_some_iff.mp hpair
    obtain ⟨hsource, htarget, -⟩ := (Discovery.indexed_eq_some_iff (keyed_new hshards)).mp he
    exact Prod.ext (keyed_new hshards _ _ hsource) (keyed_new hshards _ _ htarget)
  rw [← hends ends hpair, ← hends ends' hpair']

include halike

/-- **The edges shown are those of the union** whose envelope overlaps the rectangle. -/
theorem mem_edgesInBox_iff (hexact : search.Exact) {e : Edge (Node E Point)} :
    e ∈ (new shards).edgesInBox search bounds ↔ UnionFat shards e ∧
      (envelopeOf e.source.position e.target.position).intersects bounds = true := by
  have hpair : ∀ ends : E × E, ends ∈ ((new shards).shards.flatMap fun shard =>
      shard.indexEdge.search search bounds).firstSeen id [] ↔
        ∃ shard ∈ shards, ends ∈ shard.indexEdge.search search bounds := by
    intro ends
    rw [List.mem_firstSeen_id_iff, List.mem_flatMap]
    rfl
  -- a node of a shard is the node of the union
  have hnode : ∀ shard ∈ shards, ∀ id n n', shard.node id = some n → n'.id = id →
      UnionNode shards n' → n = n' := by
    intro shard hshard id n n' hn hid hunion
    have hkeyed := (hshards shard hshard).keyed id n hn
    have hnew := (node_new_iff hshards halike).mpr ⟨hkeyed, shard, hshard, hkeyed ▸ hn⟩
    have hnew' := (node_new_iff hshards halike).mpr ⟨hid, hunion⟩
    exact Option.some.inj (hnew.symm.trans hnew')
  rw [edgesInBox, List.mem_filterMap]
  simp only [hpair, indexed_new_iff hshards halike]
  constructor
  · rintro ⟨ends, ⟨shard, hshard, hfound⟩, hsource, htarget, hfat⟩
    obtain ⟨data, source, target, -, hs, ht, hoverlap⟩ :=
      (mem_search_indexEdge_iff hexact (hshards shard hshard)).mp hfound
    rw [hnode shard hshard _ _ _ hs hsource hfat.source,
      hnode shard hshard _ _ _ ht htarget hfat.target] at hoverlap
    exact ⟨hfat, hoverlap⟩
  · rintro ⟨hfat, hoverlap⟩
    obtain ⟨id, ⟨shard, hshard, hdata⟩, -⟩ := hfat.edge
    obtain ⟨hs, ht⟩ := (hshards shard hshard).ends_mem _ _ _ hdata
    obtain ⟨source, hs⟩ := Option.isSome_iff_exists.mp hs
    obtain ⟨target, ht⟩ := Option.isSome_iff_exists.mp ht
    refine ⟨(e.source.id, e.target.id), ⟨shard, hshard, ?_⟩, rfl, rfl, hfat⟩
    refine (mem_search_indexEdge_iff hexact (hshards shard hshard)).mpr
      ⟨_, source, target, hdata, hs, ht, ?_⟩
    rwa [hnode shard hshard _ _ _ hs rfl hfat.source, hnode shard hshard _ _ _ ht rfl hfat.target]

/-- **The nodes shown are those of the union** in the rectangle. -/
theorem mem_nodesInBox_iff (hexact : search.Exact) {n : Node E Point} :
    n ∈ (new shards).nodesInBox search bounds ↔
      UnionNode shards n ∧ bounds.contains n.position = true := by
  have hfound : ∀ n, n ∈ (shards.flatMap fun shard => shard.index.search search bounds).filterMap
      (new shards).node ↔ UnionNode shards n ∧ bounds.contains n.position = true := by
    intro n
    simp only [List.mem_filterMap, List.mem_flatMap, mem_search_index_iff hexact,
      node_new_iff hshards halike]
    constructor
    · rintro ⟨id, ⟨shard, hshard, n', hn', hcontains⟩, rfl, hunion⟩
      obtain ⟨shard', hshard', hn⟩ := hunion
      rw [halike.position_eq shard hshard shard' hshard' n.id n' n hn' hn] at hcontains
      exact ⟨⟨shard', hshard', hn⟩, hcontains⟩
    · rintro ⟨⟨shard, hshard, hn⟩, hcontains⟩
      exact ⟨n.id, ⟨shard, hshard, n, hn, hcontains⟩, rfl, shard, hshard, hn⟩
  constructor
  · exact fun h => (hfound n).mp (List.firstSeen_sublist.mem h)
  · intro h
    have hkey : n.id ∈ ((new shards).nodesInBox search bounds).map Node.id :=
      List.mem_map_firstSeen_iff.mpr
        ⟨List.mem_map_of_mem ((hfound n).mpr h), List.not_mem_nil⟩
    -- the node kept under this identifier is this one
    obtain ⟨n', hn', hid⟩ := List.mem_map.mp hkey
    obtain ⟨hunion, -⟩ := (hfound n').mp (List.firstSeen_sublist.mem hn')
    have hnew := (node_new_iff hshards halike).mpr ⟨rfl, h.1⟩
    have hnew' := (node_new_iff hshards halike).mpr ⟨hid, hunion⟩
    rwa [Option.some.inj (hnew.symm.trans hnew')]

end Box

end MultiShardNetwork

/-- **A composite network is the union of its shards.**  For shards that agree on what they
share, and a tree that finds the envelopes overlapping a rectangle: the edges shown are those of
the union whose envelope does, with their weights, roads and directions, and none is shown twice;
the nodes shown are those of the union that it contains, each once; and edges, nodes and the edges
at a node are looked up as in the union. -/
theorem composite_union {shards : List (ShardedNetwork E M S)} {search : TreeSearch}
    (hshards : ∀ shard ∈ shards, shard.WellFormed) (halike : SharedAlike shards)
    (hexact : search.Exact) (bounds : Rect) :
    (∀ e, e ∈ (MultiShardNetwork.new shards).edgesInBox search bounds ↔ UnionFat shards e ∧
      (envelopeOf e.source.position e.target.position).intersects bounds = true) ∧
    (((MultiShardNetwork.new shards).edgesInBox search bounds).map fun e =>
      (e.source.id, e.target.id)).Nodup ∧
    (∀ n, n ∈ (MultiShardNetwork.new shards).nodesInBox search bounds ↔
      UnionNode shards n ∧ bounds.contains n.position = true) ∧
    (((MultiShardNetwork.new shards).nodesInBox search bounds).map Node.id).Nodup ∧
    (∀ a b e, (MultiShardNetwork.new shards).edge a b = some e ↔
      e.source = a ∧ e.target = b ∧ UnionEdge shards a b (e.weight, e.id)) ∧
    (∀ id n, (MultiShardNetwork.new shards).node id = some n ↔ n.id = id ∧ UnionNode shards n) ∧
    (∀ id entry, (entry ∈ (MultiShardNetwork.new shards).dataPlane.edgesOutof id ↔
        entry.1 = id ∧ UnionEdge shards entry.1 entry.2.1 entry.2.2) ∧
      (entry ∈ (MultiShardNetwork.new shards).dataPlane.edgesInto id ↔
        entry.2.1 = id ∧ UnionEdge shards entry.1 entry.2.1 entry.2.2)) ∧
    ∀ id, ((MultiShardNetwork.new shards).dataPlane.edgesOutof id).Nodup ∧
      ((MultiShardNetwork.new shards).dataPlane.edgesInto id).Nodup := by
  have hedge : ∀ entry : E × E × ℕ × DirectionAwareEdgeId E,
      entry ∈ (MultiShardNetwork.new shards).dataPlane.graph.allEdges ↔
        UnionEdge shards entry.1 entry.2.1 entry.2.2 := fun entry =>
    GraphMap.mem_allEdges_iff.trans (MultiShardNetwork.edgeWeight_new_iff halike)
  refine ⟨fun e => MultiShardNetwork.mem_edgesInBox_iff hshards halike hexact,
    MultiShardNetwork.nodup_edgesInBox hshards,
    fun n => MultiShardNetwork.mem_nodesInBox_iff hshards halike hexact,
    List.nodup_map_firstSeen, fun a b e => ?_,
    fun id n => MultiShardNetwork.node_new_iff hshards halike, fun id entry => ⟨?_, ?_⟩,
    fun id => ⟨(GraphMap.nodup_allEdges _).filter _, (GraphMap.nodup_allEdges _).filter _⟩⟩
  · rw [MultiShardNetwork.edge, Discovery.edge, Option.map_eq_some_iff]
    constructor
    · rintro ⟨data, hdata, rfl⟩
      exact ⟨rfl, rfl, (MultiShardNetwork.edgeWeight_new_iff halike).mp hdata⟩
    · rintro ⟨rfl, rfl, hdata⟩
      exact ⟨_, (MultiShardNetwork.edgeWeight_new_iff halike).mpr hdata, rfl⟩
  · rw [DataPlane.edgesOutof, List.mem_filter, decide_eq_true_eq, hedge, and_comm]
  · rw [DataPlane.edgesInto, List.mem_filter, decide_eq_true_eq, hedge, and_comm]

/-- A source of two edges in a row. -/
def rowSource : ShardSource ℕ Unit :=
  ⟨[(1, ⟨0, 0⟩), (2, ⟨1, 0⟩), (3, ⟨2, 0⟩)], [(1, 2, 5, ()), (2, 3, 7, ())]⟩

/-- Two cells, on either side of a line. -/
def halves : ShardingStrategy Bool :=
  ⟨fun p => decide (1 ≤ p.x), fun _ => ⟨⟨0, 0⟩, ⟨1, 1⟩⟩, fun cell => [!cell]⟩

/-- A shard of one of the cells, and one of both. -/
def overlapping : List (ShardedNetwork ℕ Unit Bool) :=
  [(halves, (⟨false, [false], none⟩ : Selection Bool)), (halves, ⟨true, [false, true], none⟩)].map
    fun build => ShardedNetwork.fromSource rowSource build.1 build.2

/-- An edge that two shards hold is shown, and no edge is shown twice. -/
theorem composite_union_overlapping :
    ⟨⟨1, ⟨0, 0⟩⟩, ⟨2, ⟨1, 0⟩⟩, 5, ⟨⟨1, ⟨0, 0⟩⟩, .outgoing⟩⟩
      ∈ (MultiShardNetwork.new overlapping).edgesInBox scanSearch block ∧
    (((MultiShardNetwork.new overlapping).edgesInBox scanSearch block).map fun e =>
      (e.source.id, e.target.id)).Nodup := by
  have hshards : ∀ shard ∈ overlapping, shard.WellFormed := by
    intro shard hshard
    obtain ⟨build, -, rfl⟩ := List.mem_map.mp hshard
    exact ShardedNetwork.wellFormed_fromSource rowSource build.1 build.2
  obtain ⟨hmem, hnodup, -⟩ :=
    composite_union hshards (sharedAlike_fromSource rowSource _) exact_scanSearch block
  refine ⟨(hmem _).mpr ⟨⟨?_, ?_, ⟨1, .outgoing⟩, ?_, rfl⟩, by decide +kernel⟩, hnodup⟩
  · exact ⟨_, List.mem_cons_self, by decide +kernel⟩
  · exact ⟨_, List.mem_cons_self, by decide +kernel⟩
  · exact ⟨_, List.mem_cons_self, by decide +kernel⟩

end Routers
