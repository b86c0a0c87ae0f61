import Routers.Trellis.Basic
import Mathlib.Data.List.Dedup
import Mathlib.Data.List.Sort

/-!
# The Viterbi solver

The solver positions every boundary against one flat table laid out like the node
buffer, fills the table layer by layer, and reads the cheapest path off backwards,
recomputing each predecessor from the table.  The convergence query runs the same
tables and follows every live final node backwards at once.

## Main definitions

* `SolveError`, `Path` — what a solve returns.
* `ViterbiSolver.Boundary`, `boundaries` — the positioned boundaries.
* `ViterbiSolver.forwardPass`, `predecessor`, `backtrack` — the solve.
* `ViterbiSolver.convergedLayer`, `convergence` — the convergence query.

## References

`src/libs/routers_trellis/src/solver/viterbi.rs`, `src/libs/routers_trellis/src/solver/mod.rs` and
`src/libs/routers_trellis/src/path.rs`.
-/

namespace Routers

/-- Why a trellis has no solution. -/
inductive SolveError
  | notResolved (layer : ℕ)
  | unreachable
  deriving DecidableEq, Repr

/-- The chosen node of each layer, and the total cost. -/
structure Path where
  nodes : List ℕ
  cost : ℕ
  deriving DecidableEq, Repr

/-- `chunks_exact`: the consecutive blocks of length `n`, any remainder dropped. -/
def chunksExact (n : ℕ) (l : List ℕ) : List (List ℕ) :=
  (List.range (l.length / n)).map fun i => (l.drop (i * n)).take n

/-- `step_by`: every `n`-th element, starting with the first. -/
def stepBy (n : ℕ) (l : List ℕ) : List ℕ :=
  (List.range ((l.length + n - 1) / n)).map fun i => l.getD (i * n) 0

/-- `min` on pairs of a cost and a node: the least cost, ties to the lowest node. -/
def lexMin : List (ℕ × ℕ) → Option (ℕ × ℕ)
  | [] => none
  | p :: ps =>
    match lexMin ps with
    | none => some p
    | some q => if q.1 < p.1 ∨ q.1 = p.1 ∧ q.2 < p.2 then some q else some p

namespace ViterbiSolver

/-- One boundary, resolved and positioned: its weights, the entered layer's node
weights, and both adjacent layers' positions in the flat table. -/
structure Boundary where
  id : ℕ
  cur : Range
  next : Range
  weights : List ℕ
  nodeWeights : List ℕ

/-- Every boundary of `t`, or the first unresolved one as the error. -/
def boundaries (t : Trellis) : Except SolveError (List Boundary) :=
  let ranges := t.layerRanges
  (t.boundaries.zip (ranges.zip (ranges.drop 1))).mapM fun p =>
    match t.layer p.1 with
    | some weights => .ok
        { id := p.1
          cur := p.2.1
          next := p.2.2
          weights := weights
          nodeWeights := slice t.nodes p.2.2 }
    | none => .error (.notResolved p.1)

/-- The entered layer's costs, given the costs of the layer left. -/
def enter (boundary : Boundary) (curCosts : List ℕ) : List ℕ :=
  let nextCosts := List.replicate boundary.next.len infW
  let reachable := (curCosts.zip (chunksExact boundary.next.len boundary.weights)).filter
    fun p => decide (p.1 < infW)
  let relaxed := reachable.foldl
    (fun next p => List.zipWith (fun n edge => min n (wrappingAdd p.1 edge)) next p.2) nextCosts
  -- entering a node costs its weight, paid only by the nodes some path reaches
  List.zipWith (fun n weight => if n < infW then wrappingAdd n weight else n)
    relaxed boundary.nodeWeights

/-- Fill `dist` with the cost of reaching and entering every node. -/
def forwardPass (boundaries : List Boundary) (dist : List ℕ) : List ℕ :=
  boundaries.foldl
    (fun dist boundary =>
      copyFromSlice dist boundary.next (enter boundary (slice dist boundary.cur))) dist

/-- The node reaching `chosen` across `boundary` cheapest, ties to the lowest. -/
def predecessor (boundary : Boundary) (dist : List ℕ) (chosen : ℕ) : Option ℕ :=
  let intoChosen := stepBy boundary.next.len (boundary.weights.drop chosen)
  let costs := List.zipWith saturatingAdd (slice dist boundary.cur) intoChosen
  (lexMin costs.zipIdx).map Prod.snd

/-- The predecessors met walking the boundaries from the last one down. -/
def tailToHead (dist : List ℕ) : List Boundary → ℕ → List ℕ
  | [], _ => []
  | boundary :: rest, chosen =>
    match predecessor boundary dist chosen with
    | none => []
    | some predecessor => predecessor :: tailToHead dist rest predecessor

/-- Trace the optimal path backwards through `dist`. -/
def backtrack (last : Range) (boundaries : List Boundary) (dist : List ℕ) :
    Except SolveError Path :=
  match lexMin (slice dist last).zipIdx with
  | none => .error .unreachable
  | some (bestCost, finalNode) =>
    if infW ≤ bestCost then .error .unreachable
    else .ok
      { nodes := (tailToHead dist boundaries.reverse finalNode).reverse ++ [finalNode]
        cost := bestCost }

/-- Follow a frontier of nodes backwards until it is a single node. -/
def sweep (dist : List ℕ) : List Boundary → List ℕ → Option ℕ
  | [], _ => none
  | boundary :: rest, frontier =>
    let frontier := ((frontier.filterMap fun node => predecessor boundary dist node).insertionSort
      (· ≤ ·)).dedup
    if frontier.length = 1 then some boundary.id else sweep dist rest frontier

/-- The latest layer at which the optimal paths to all live final nodes agree. -/
def convergedLayer (last : Range) (boundaries : List Boundary) (dist : List ℕ) : Option ℕ :=
  let frontier := ((slice dist last).zipIdx.filter fun p => decide (p.1 < infW)).map Prod.snd
  if frontier.length = 1 then some boundaries.length
  else sweep dist boundaries.reverse frontier

/-- Resolve every boundary and run the forward pass. -/
def tables (t : Trellis) : Except SolveError (List Boundary × Range × List ℕ) :=
  match boundaries t with
  | .error e => .error e
  | .ok bs =>
    let last := t.layerRanges.getLast?.getD ⟨0, 0⟩
    .ok (bs, last, forwardPass bs t.nodes)

/-- The convergence point of the trellis's solution. -/
def convergence (t : Trellis) : Except SolveError (Option ℕ) :=
  match tables t with
  | .error e => .error e
  | .ok (bs, last, dist) =>
    if (slice dist last).all fun cost => decide (infW ≤ cost) then .error .unreachable
    else .ok (convergedLayer last bs dist)

/-- Minimum-cost path through the trellis. -/
def solve (t : Trellis) : Except SolveError Path :=
  match tables t with
  | .error e => .error e
  | .ok (bs, last, dist) => backtrack last bs dist

end ViterbiSolver

end Routers
