import Routers.Trellis.Basic
import Mathlib.Data.Rat.Init
import Mathlib.Algebra.Order.Ring.Abs
import Mathlib.Data.Rat.Cast.Order

/-!
# The road network

What routing reads of a network: the directed edges between its nodes, at most one
from a node to another, where its nodes lie, and what is known of the roads its edges
belong to.  What the geometry library computes on points is a parameter; a point stands
for a pair of coordinates and is compared by value.

## Main definitions

* `Edge`, `Network` — the directed edges and the network they make up.
* `Network.edgesOutof`, `Network.edge` — the two ways routing looks edges up.
* `Geometry` — distances, bearings and fractions along a line.
* `Milestone` — points on a straight road.

## References

`src/libs/routers_network/src/primitive/edge.rs`,
`src/libs/routers_network/src/primitive/direction.rs` and
`src/libs/routers_network/src/traits/data_plane.rs`.
-/

namespace Routers

/-- Which way an edge runs along its road. -/
inductive Direction
  | outgoing
  | incoming
  deriving DecidableEq, Repr, Inhabited

/-- The road an edge belongs to, with the direction it runs in. -/
structure DirectionAwareEdgeId (E : Type) where
  id : E
  direction : Direction
  deriving DecidableEq, Repr, Inhabited

namespace DirectionAwareEdgeId

variable {E : Type}

/-- A road, taken forwards. -/
def new (id : E) : DirectionAwareEdgeId E := ⟨id, .outgoing⟩

/-- The road of a direction-aware edge. -/
def index (edge : DirectionAwareEdgeId E) : E := edge.id

/-- The road of an edge, taken forwards. -/
def forward (edge : DirectionAwareEdgeId E) : DirectionAwareEdgeId E :=
  { edge with direction := .outgoing }

/-- The road of an edge, taken backwards. -/
def backward (edge : DirectionAwareEdgeId E) : DirectionAwareEdgeId E :=
  { edge with direction := .incoming }

end DirectionAwareEdgeId

/-- A directed edge between two nodes. -/
structure Edge (E : Type) where
  source : E
  target : E
  weight : ℕ
  id : DirectionAwareEdgeId E
  deriving DecidableEq, Repr, Inhabited

/-- What the geometry library computes on points; floats are taken as the rationals
they stand for. -/
class Geometry (P : Type) where
  /-- The great-circle distance, in metres. -/
  distance : P → P → ℚ
  /-- The great-circle distance, in whole centimetres. -/
  distanceCm : P → P → ℕ
  /-- The bearing from one point to another. -/
  bearing : P → P → ℚ
  /-- How far along a line a point lies, `none` when the line is too degenerate. -/
  lineLocatePoint : List P → P → Option ℚ

/-- A road network over nodes `E`, points `P`, metadata `M` and runtimes `R`. -/
structure Network (E P M R : Type) where
  graph : List (Edge E)
  /-- A graph map holds one edge for each ordered pair of nodes. -/
  graph_unique : ∀ e ∈ graph, ∀ e' ∈ graph, e.source = e'.source → e.target = e'.target → e = e'
  point : E → Option P
  /-- The ends of an edge lie somewhere, which routing relies on unchecked. -/
  graph_points : ∀ e ∈ graph, (point e.source).isSome ∧ (point e.target).isSome
  metadata : E → Option M
  accessible : M → R → Direction → Bool

namespace Network

variable {E P M R : Type}

/-- The edges leaving a node. -/
def edgesOutof [DecidableEq E] (map : Network E P M R) (id : E) : List (Edge E) :=
  map.graph.filter fun e => e.source = id

/-- The edge between two nodes, should it exist. -/
def edge [DecidableEq E] (map : Network E P M R) (source target : E) : Option (Edge E) :=
  map.graph.find? fun e => decide (e.source = source) && decide (e.target = target)

/-- The points of the nodes that have one. -/
def line (map : Network E P M R) (nodes : List E) : List P := nodes.filterMap map.point

/-- The distance between two nodes, in whole centimetres.  The points of both are read
unchecked; the ends of an edge have them. -/
def distanceCm [Geometry P] (map : Network E P M R) (source target : E) : ℕ :=
  match map.point source, map.point target with
  | some p, some q => Geometry.distanceCm p q
  | _, _ => 0

/-- Whether a runtime may use an edge; an edge without metadata is closed. -/
def isOpen (map : Network E P M R) (runtime : R) (e : Edge E) : Bool :=
  match map.metadata e.id.index with
  | some data => map.accessible data runtime e.id.direction
  | none => false

section Lookup

variable [DecidableEq E] (map : Network E P M R)

@[simp] theorem mem_edgesOutof {id : E} {e : Edge E} :
    e ∈ map.edgesOutof id ↔ e ∈ map.graph ∧ e.source = id := by
  simp [edgesOutof]

theorem edge_eq_some_iff {source target : E} {e : Edge E} :
    map.edge source target = some e ↔ e ∈ map.graph ∧ e.source = source ∧ e.target = target := by
  rw [edge]
  constructor
  · intro h
    have hp := List.find?_some h
    simp only [Bool.and_eq_true, decide_eq_true_eq] at hp
    exact ⟨List.mem_of_find?_eq_some h, hp⟩
  · rintro ⟨hmem, rfl, rfl⟩
    cases hfind : map.graph.find? fun e' =>
        decide (e'.source = e.source) && decide (e'.target = e.target) with
    | none =>
      have := List.find?_eq_none.mp hfind e hmem
      simp at this
    | some e' =>
      have hp := List.find?_some hfind
      simp only [Bool.and_eq_true, decide_eq_true_eq] at hp
      rw [map.graph_unique e' (List.mem_of_find?_eq_some hfind) e hmem hp.1 hp.2]

end Lookup

end Network

/-! ### Points on a straight road -/

/-- A point on a straight road, by its distance from the road's start. -/
structure Milestone where
  metres : ℤ
  deriving DecidableEq, Repr, Inhabited

instance : Geometry Milestone where
  distance p q := |p.metres - q.metres|
  distanceCm p q := (p.metres - q.metres).natAbs * 100
  bearing p q := if p.metres ≤ q.metres then 90 else -90
  lineLocatePoint line p :=
    match line with
    | [a, b] => if a = b then none else some ((p.metres - a.metres) / (b.metres - a.metres))
    | _ => none

end Routers
