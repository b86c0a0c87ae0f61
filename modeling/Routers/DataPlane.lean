import Routers.Geo
import Routers.Network
import Routers.Library.GraphMap

/-!
# Data planes

What every kind of network stores: a graph whose edges carry a weight and the road they
belong to, a table of positions and a table of metadata.  A search reads positions
unchecked, so that it may only be run where all the ends of edges have one.

## Main definitions

* `GraphStructure` — graphs whose edges have a weight and a road.
* `DataPlane` — a graph with its tables.
* `DataPlane.Placed` — every end of an edge lies somewhere.
* `DataPlane.UnwrapsAt`, `DataPlane.SearchSafe` — the unchecked reads around a node, and around
  every end of an edge, find what they read.
* `DataPlane.network` — the routing network of a placed data plane.

## Main results

* `DataPlane.placed_iff` — **placed is what the unchecked reads around all ends of edges need.**

## References

`src/libs/routers_network/src/traits/data_plane.rs` and
`src/libs/routers_transition/src/primitives/cache.rs`.
-/

namespace Routers

/-- A graph whose edges carry a weight and the road they belong to. -/
abbrev GraphStructure (E : Type) := GraphMap E (ℕ × DirectionAwareEdgeId E)

/-- A graph with a table of positions and one of metadata. -/
structure DataPlane (E M : Type) where
  graph : GraphStructure E
  point : E → Option Point
  metadata : E → Option M

namespace DataPlane

variable {E M R : Type} [DecidableEq E] (plane : DataPlane E M)

/-- The edges leaving a node. -/
def edgesOutof (id : E) : List (E × E × ℕ × DirectionAwareEdgeId E) :=
  plane.graph.allEdges.filter fun entry => decide (entry.1 = id)

/-- The edges entering a node. -/
def edgesInto (id : E) : List (E × E × ℕ × DirectionAwareEdgeId E) :=
  plane.graph.allEdges.filter fun entry => decide (entry.2.1 = id)

/-- Whether a runtime may use an edge; an edge without metadata is closed. -/
def isOpen (accessible : M → R → Direction → Bool) (runtime : R)
    (edge : DirectionAwareEdgeId E) : Bool :=
  match plane.metadata edge.index with
  | some data => accessible data runtime edge.direction
  | none => false

/-- Every end of an edge lies somewhere. -/
def Placed : Prop := ∀ a b w, plane.graph.edgeWeight a b = some w →
  (plane.point a).isSome ∧ (plane.point b).isSome

/-- The two unchecked reads that the calculation of successors makes at a node find a
position: that of the node and those of the nodes its edges lead to. -/
def UnwrapsAt (id : E) : Prop :=
  (plane.point id).isSome ∧ ∀ entry ∈ plane.edgesOutof id, (plane.point entry.2.1).isSome

/-- The node is an end of an edge. -/
def IsEndpoint (id : E) : Prop :=
  ∃ a b w, plane.graph.edgeWeight a b = some w ∧ (id = a ∨ id = b)

/-- No unchecked read around an end of an edge fails. -/
def SearchSafe : Prop := ∀ id, plane.IsEndpoint id → plane.UnwrapsAt id

variable {plane}

/-- **Placed is what the unchecked reads need** around every end of an edge. -/
theorem placed_iff : plane.Placed ↔ plane.SearchSafe := by
  constructor
  · rintro h id ⟨a, b, w, hw, hid⟩
    refine ⟨?_, fun entry hentry => ?_⟩
    · rcases hid with rfl | rfl
      · exact (h _ _ w hw).1
      · exact (h _ _ w hw).2
    · obtain ⟨s, t, w'⟩ := entry
      have hmem := GraphMap.mem_allEdges_iff.mp (List.mem_of_mem_filter hentry)
      exact (h s t w' hmem).2
  · intro h a b w hw
    exact ⟨(h a ⟨a, b, w, hw, .inl rfl⟩).1, (h b ⟨a, b, w, hw, .inr rfl⟩).1⟩

/-- The routing network of a placed data plane. -/
def network (plane : DataPlane E M) (h : plane.Placed) (accessible : M → R → Direction → Bool) :
    Network E Point M R where
  graph := plane.graph.allEdges.map fun entry => ⟨entry.1, entry.2.1, entry.2.2.1, entry.2.2.2⟩
  graph_unique := by
    simp only [List.mem_map, Prod.exists]
    rintro e ⟨a, b, w, id, hmem, rfl⟩ e' ⟨a', b', w', id', hmem', rfl⟩ rfl rfl
    rw [GraphMap.mem_allEdges_iff] at hmem hmem'
    cases hmem.symm.trans hmem'
    rfl
  point := plane.point
  graph_points := by
    simp only [List.mem_map, Prod.exists]
    rintro e ⟨a, b, w, id, hmem, rfl⟩
    exact h a b _ (GraphMap.mem_allEdges_iff.mp hmem)
  metadata := plane.metadata
  accessible := accessible

end DataPlane

end Routers
