import Routers.Library.PriorityQueue
import Routers.Network

/-!
# The bounded search

The search settles nodes in the order of a cost that multiplies the distance travelled
by the square of the average road class.  It keeps one label a node, in an index map,
and a heap of labels that may have gone stale; the cost is not monotone along a path,
so a settled node's label may still change, without effect on what was yielded.

The successors are asked of a function that may carry a state, as a caching one does.
The search runs on fuel: each round settles a node, so a network's edges bound it.

## Main definitions

* `WeightAndDistance` — the cost, with the arithmetic of `u32`.
* `DijkstraReachable`, `DijkstraReachable.next` — the search and one round of it.
* `Dijkstra.reach`, `Dijkstra.items` — its start, and the items it yields while they
  are wanted.

## References

`src/libs/routers_transition/src/primitives/algorithms/dijkstra.rs` and
`src/libs/routers_transition/src/primitives/weight_and_distance.rs`.
-/

namespace Routers

/-! ### The cost -/

/-- The accumulated routing cost of a candidate path. -/
structure WeightAndDistance where
  numerator : ℕ
  denominator : ℕ
  distanceCm : ℕ
  deriving DecidableEq, Repr, Inhabited

namespace WeightAndDistance

/-- The running average road-class weight. -/
def weight (c : WeightAndDistance) : ℕ :=
  if c.denominator = 0 then 0 else c.numerator / c.denominator

/-- `weight² × distance`, the cast from a float saturating at `u32::MAX`.  Below that
the product is a whole number a float holds exactly. -/
def repr (c : WeightAndDistance) : ℕ := min (c.weight ^ 2 * c.distanceCm) u32Max

/-- The cost of a single edge; the distance arrives in whole centimetres. -/
def new (weight distance : ℕ) : WeightAndDistance := ⟨weight, 1, min distance u32Max⟩

/-- Costs add fieldwise, as a release build adds `u32`s. -/
def add (c d : WeightAndDistance) : WeightAndDistance where
  numerator := wrappingAdd c.numerator d.numerator
  denominator := wrappingAdd c.denominator d.denominator
  distanceCm := wrappingAdd c.distanceCm d.distanceCm

/-- The cost of going nowhere. -/
def zero : WeightAndDistance := ⟨0, 0, 0⟩

/-- `a > b` on costs compares their representations. -/
def exceeds (c d : WeightAndDistance) : Bool := d.repr < c.repr

end WeightAndDistance

/-! ### The search -/

/-- An entry of the heap: a label of the node at `index`. -/
structure SmallestHolder where
  cost : WeightAndDistance
  index : ℕ
  deriving DecidableEq, Repr

/-- A binary heap of labels, the least cost first. -/
abbrev Heap := PriorityQueue SmallestHolder fun holder => holder.cost.repr

/-- The state of a search.  `parents` is an index map: each node once, in the order
first met, with the index of the node it was reached from and its label. -/
structure DijkstraReachable (E : Type) (heap : Heap) where
  toSee : heap.Carrier
  seen : List ℕ
  parents : List (E × Option ℕ × WeightAndDistance)

/-- A node reached by the search. -/
structure DijkstraReachableItem (E : Type) where
  node : E
  parent : Option E
  totalCost : WeightAndDistance
  deriving DecidableEq, Repr

namespace DijkstraReachable

variable {E : Type} [DecidableEq E] {heap : Heap}

/-- The index of a node in the index map. -/
def indexOf (s : DijkstraReachable E heap) (node : E) : Option ℕ :=
  s.parents.findIdx? fun entry => entry.1 = node

/-- Offer the node at `index`, settled at `cost`, as the way to a successor: a new node
is labelled, a dearer label replaced. -/
def relax (index : ℕ) (cost : WeightAndDistance) (s : DijkstraReachable E heap)
    (successor : E × WeightAndDistance) : DijkstraReachable E heap :=
  let newCost := cost.add successor.2
  match s.indexOf successor.1 with
  | none =>
    { s with
      parents := s.parents ++ [(successor.1, some index, newCost)]
      toSee := heap.push s.toSee ⟨newCost, s.parents.length⟩ }
  | some n =>
    match s.parents[n]? with
    | none => s
    | some entry =>
      if entry.2.2.exceeds newCost then
        { s with
          parents := s.parents.set n (successor.1, some index, newCost)
          toSee := heap.push s.toSee ⟨newCost, n⟩ }
      else s

/-- Settle the node at the index of `holder`, read from the index map. -/
def settle (s : DijkstraReachable E heap) (holder : SmallestHolder)
    (successors : List (E × WeightAndDistance)) : DijkstraReachable E heap :=
  successors.foldl (relax holder.index holder.cost)
    { s with seen := holder.index :: s.seen }

/-- The item of an entry of the index map. -/
def item (s : DijkstraReachable E heap) (entry : E × Option ℕ × WeightAndDistance) :
    DijkstraReachableItem E where
  node := entry.1
  parent := entry.2.1.bind fun i => (s.parents[i]?).map Prod.fst
  totalCost := entry.2.2

/-- The rounds of `next`: labels of settled nodes are passed over until one settles a
node.  Each round pops a label, so their number is fuel enough.  An index that is not
in the map would panic; the search never pushes one. -/
def nextLoop {σ : Type} (successors : E → σ → List (E × WeightAndDistance) × σ) :
    ℕ → DijkstraReachable E heap → σ →
      Option (DijkstraReachableItem E × DijkstraReachable E heap × σ)
  | 0, _, _ => none
  | fuel + 1, s, cache =>
    match heap.pop s.toSee with
    | none => none
    | some (holder, toSee) =>
      let s := { s with toSee := toSee }
      if holder.index ∈ s.seen then nextLoop successors fuel s cache
      else
        match s.parents[holder.index]? with
        | none => none
        | some entry =>
          let asked := successors entry.1 cache
          some (s.item entry, s.settle holder asked.1, asked.2)

/-- The next node in order of cost. -/
def next {σ : Type} (successors : E → σ → List (E × WeightAndDistance) × σ)
    (s : DijkstraReachable E heap) (cache : σ) :
    Option (DijkstraReachableItem E × DijkstraReachable E heap × σ) :=
  nextLoop successors (heap.items s.toSee).length s cache

end DijkstraReachable

namespace Dijkstra

variable {E : Type} [DecidableEq E]

/-- A search from `start`, nothing settled. -/
def reach (heap : Heap) (start : E) : DijkstraReachable E heap where
  toSee := heap.push heap.empty ⟨WeightAndDistance.zero, 0⟩
  seen := []
  parents := [(start, none, WeightAndDistance.zero)]

/-- The items a search yields while they are `wanted`, for at most `fuel` of them, and
the state the successors are left in. -/
def items {heap : Heap} {σ : Type} (successors : E → σ → List (E × WeightAndDistance) × σ)
    (wanted : WeightAndDistance → Bool) :
    ℕ → DijkstraReachable E heap → σ → List (DijkstraReachableItem E) × σ
  | 0, _, cache => ([], cache)
  | fuel + 1, s, cache =>
    match s.next successors cache with
    | none => ([], cache)
    | some (item, s, cache) =>
      if wanted item.totalCost then
        let rest := items successors wanted fuel s cache
        (item :: rest.1, rest.2)
      else ([], cache)

end Dijkstra

end Routers
