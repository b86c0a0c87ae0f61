import Mathlib.Data.List.Basic
import Mathlib.Data.Nat.Notation
import Mathlib.Tactic.Ring

/-!
# The trellis

A layered transition graph: edges exist only between adjacent layers, and every
node carries a weight paid on entering it.  Three parallel vectors hold it — the
layer widths, the node weights laid out layer after layer in one flat buffer, and
one transition per boundary, which is `pending` until its edge weights are known.

Operations taking `&mut self` return their result together with the trellis they
leave behind, so that what a failing call does to its receiver is part of the
model.  Widths, `LayerId`s and `NodeId`s are naturals: the casts to and from `u32`
are exact as long as a trellis has fewer than `2 ^ 32` nodes.

## Main definitions

* `Transition`, `Trellis` — the data.
* `Trellis.new`, `addLayer`, `setEdge`, `fillTransition`, `fillNodes`,
  `markPending`, `partition`, `last` — the operations.
* `Trellis.edgeWeight`, `nodeWeight`, `pathCost` — the costs.

## References

`src/libs/routers_trellis/src/trellis.rs`, `src/libs/routers_trellis/src/transition.rs` and
`src/libs/routers_trellis/src/types.rs`.
-/

namespace Routers

/-! ### Machine arithmetic -/

/-- The modulus of `u32`. -/
def u32Modulus : ℕ := 2 ^ 32

/-- `u32::MAX`. -/
def u32Max : ℕ := u32Modulus - 1

/-- `u32::saturating_add`. -/
def saturatingAdd (a b : ℕ) : ℕ := min (a + b) u32Max

/-- `+` on `u32`, as a release build computes it. -/
def wrappingAdd (a b : ℕ) : ℕ := (a + b) % u32Modulus

/-! ### Sentinels -/

/-- Reserved sentinel meaning "no edge" in the rows a caller hands over. -/
def noEdge : ℕ := u32Max

/-- Internal infinity of the cost tables. -/
def infW : ℕ := 2 ^ 30

/-- Largest permitted real edge or node weight. -/
def maxWeight : ℕ := infW - 1

theorem infW_lt_u32Max : infW < u32Max := by decide

theorem maxWeight_lt_infW : maxWeight < infW := by decide

/-! ### The data -/

/-- The reasons a trellis refuses a call. -/
inductive TrellisError
  | empty
  | zeroWidthLayer (layer : ℕ)
  | layerOutOfRange (layer : ℕ)
  | nodeOutOfRange (layer : ℕ) (node : ℕ)
  | weightTooLarge (weight : ℕ)
  | transitionLenMismatch (layer : ℕ) (expected got : ℕ)
  | nodeLenMismatch (layer : ℕ) (expected got : ℕ)
  deriving DecidableEq, Repr

/-- The two states of a layer-to-layer transition. -/
inductive Transition
  /-- The weights have not been generated yet. -/
  | pending
  /-- Fixed weights, row-major; absent edges are `infW`. -/
  | resolved (weights : List ℕ)
  deriving DecidableEq, Repr, Inhabited

namespace Transition

/-- The transition has weights. -/
def isResolved : Transition → Bool
  | pending => false
  | resolved _ => true

/-- The weights of a transition, once it has them. -/
def weights : Transition → Option (List ℕ)
  | pending => none
  | resolved w => some w

/-- A pending transition becomes resolved with `size` absent edges. -/
def ensureResolved (size : ℕ) : Transition → Transition
  | pending => resolved (List.replicate size infW)
  | resolved w => resolved w

/-- Store `weight` at `index` of a resolved transition's weights. -/
def write (index weight : ℕ) : Transition → Transition
  | pending => pending
  | resolved w => resolved (w.set index weight)

end Transition

/-- A layered graph, one transition between each two adjacent layers. -/
structure Trellis where
  widths : List ℕ
  nodes : List ℕ
  transitions : List Transition
  deriving DecidableEq, Repr, Inhabited

/-- A half-open range of positions. -/
structure Range where
  start : ℕ
  stop : ℕ
  deriving DecidableEq, Repr

namespace Range

/-- How many places a range has. -/
def len (r : Range) : ℕ := r.stop - r.start

@[simp] theorem len_mk (a b : ℕ) : len ⟨a, b⟩ = b - a := rfl

end Range

/-- `l[r]`, the elements of `l` at the positions of `r`. -/
def slice {α : Type*} (l : List α) (r : Range) : List α := (l.take r.stop).drop r.start

/-- Copy `src` over the positions `r` of `l`. -/
def copyFromSlice {α : Type*} (l : List α) (r : Range) (src : List α) : List α :=
  l.take r.start ++ src ++ l.drop r.stop

/-- The ranges of consecutive blocks of the given widths, the first starting at
`start`. -/
def rangesFrom : ℕ → List ℕ → List Range
  | _, [] => []
  | start, width :: widths => ⟨start, start + width⟩ :: rangesFrom (start + width) widths

namespace Trellis

/-! ### Construction and queries -/

/-- A trellis with the given layer widths, all transitions pending and all node
weights `0`. -/
def new (widths : List ℕ) : Except TrellisError Trellis :=
  if widths.isEmpty then .error .empty
  else match widths.findIdx? (· == 0) with
    | some l => .error (.zeroWidthLayer l)
    | none => .ok
        { widths := widths
          nodes := List.replicate widths.sum 0
          transitions := List.replicate (widths.length - 1) .pending }

/-- Number of layers. -/
def layers (t : Trellis) : ℕ := t.widths.length

/-- Number of nodes of a layer. -/
def width (t : Trellis) (layer : ℕ) : ℕ := t.widths.getD layer 0

/-- The boundaries, each identified by its lower layer. -/
def boundaries (t : Trellis) : List ℕ := List.range t.transitions.length

/-- Each layer's positions within a flat, layer-major buffer of all nodes. -/
def layerRanges (t : Trellis) : List Range := rangesFrom 0 t.widths

/-- Whether the transition from `layer` to the next one is resolved. -/
def isResolved (t : Trellis) (layer : ℕ) : Bool :=
  (t.transitions[layer]?.map Transition.isResolved).getD false

/-- Whether every transition is resolved. -/
def fullyResolved (t : Trellis) : Bool := t.transitions.all Transition.isResolved

/-- The first pending transition. -/
def firstPending (t : Trellis) : Option ℕ :=
  t.transitions.findIdx? fun tr => !tr.isResolved

/-- Raw edge weights of a transition, `none` while it is pending. -/
def layer (t : Trellis) (layer : ℕ) : Option (List ℕ) :=
  t.transitions[layer]?.bind Transition.weights

/-- Every boundary left pending, in layer order. -/
def disconnections (t : Trellis) : List ℕ :=
  (t.transitions.zipIdx.filter fun p => !p.1.isResolved).map Prod.snd

/-- The weight of one edge, `infW` if the transition is pending or the edge absent. -/
def edgeWeight (t : Trellis) (layer : ℕ) (src dst : ℕ) : ℕ :=
  let nextWidth := t.width (layer + 1)
  (((t.transitions.getD layer .pending).weights).map
    fun w => w.getD (src * nextWidth + dst) 0).getD infW

/-- The positions of `layer` within the node buffer. -/
def nodeRange (t : Trellis) (layer : ℕ) : Except TrellisError Range :=
  match t.layerRanges[layer]? with
  | some r => .ok r
  | none => .error (.layerOutOfRange layer)

/-- A layer's node weights. -/
def nodeWeights (t : Trellis) (layer : ℕ) : Option (List ℕ) :=
  match t.nodeRange layer with
  | .ok r => some (slice t.nodes r)
  | .error _ => none

/-- One node's weight, `none` when out of range. -/
def nodeWeight (t : Trellis) (layer : ℕ) (node : ℕ) : Option ℕ :=
  (t.nodeWeights layer).bind fun w => w[node]?

/-- Total cost of a full node path: the first node's weight, then each boundary's
edge weight and the entered node's weight, saturating.  The code panics on a path
that does not name one valid node per layer; here such a node weighs `0`. -/
def pathCost (t : Trellis) (nodes : List ℕ) : ℕ :=
  let nodeCost (layer : ℕ) (node : ℕ) : ℕ := (t.nodeWeight layer node).getD 0
  (nodes.zip nodes.tail).zipIdx.foldl
    (fun cost hop =>
      saturatingAdd (saturatingAdd cost (t.edgeWeight hop.2 hop.1.1 hop.1.2))
        (nodeCost (hop.2 + 1) hop.1.2))
    (nodeCost 0 (nodes.headD 0))

/-! ### Operations on a mutable trellis -/

/-- `transitions[layer] = transition`. -/
def setTransition (t : Trellis) (layer : ℕ) (transition : Transition) : Trellis :=
  { t with transitions := t.transitions.set layer transition }

/-- Reset a transition back to pending, discarding its edges. -/
def markPending (t : Trellis) (layer : ℕ) : Except TrellisError Unit × Trellis :=
  if t.transitions.length ≤ layer then (.error (.layerOutOfRange layer), t)
  else (.ok (), t.setTransition layer .pending)

/-- Set one directed edge from `layer` to the next layer.  A pending transition
becomes resolved with every other edge absent. -/
def setEdge (t : Trellis) (layer : ℕ) (src dst : ℕ) (weight : ℕ) :
    Except TrellisError Unit × Trellis :=
  if maxWeight < weight then (.error (.weightTooLarge weight), t)
  else if t.layers ≤ layer + 1 then (.error (.layerOutOfRange layer), t)
  else
    let curWidth := t.width layer
    let nextWidth := t.width (layer + 1)
    if curWidth ≤ src then (.error (.nodeOutOfRange layer src), t)
    else if nextWidth ≤ dst then (.error (.nodeOutOfRange (layer + 1) dst), t)
    else
      let transition := (t.transitions.getD layer .pending).ensureResolved (curWidth * nextWidth)
      (.ok (), t.setTransition layer (transition.write (src * nextWidth + dst) weight))

/-- Allocate a new layer, a pending transition into it and zero node weights. -/
def addLayer (t : Trellis) (width : ℕ) : Except TrellisError ℕ × Trellis :=
  let id := t.layers
  if width = 0 then (.error (.zeroWidthLayer id), t)
  else (.ok id,
    { widths := t.widths ++ [width]
      nodes := t.nodes ++ List.replicate width 0
      transitions := t.transitions ++ [.pending] })

/-- Bulk-fill a transition, row-major; entries equal to `noEdge` are stored as
absent, all others must be real weights. -/
def fillTransition (t : Trellis) (layer : ℕ) (rows : List ℕ) :
    Except TrellisError Unit × Trellis :=
  if t.layers ≤ layer + 1 then (.error (.layerOutOfRange layer), t)
  else
    let expected := t.width layer * t.width (layer + 1)
    if rows.length ≠ expected then
      (.error (.transitionLenMismatch layer expected rows.length), t)
    else match rows.find? fun w => w != noEdge && decide (maxWeight < w) with
      | some w => (.error (.weightTooLarge w), t)
      | none =>
        let weights := rows.map fun w => if w = noEdge then infW else w
        (.ok (), t.setTransition layer (.resolved weights))

/-- Fill a layer's node weights. -/
def fillNodes (t : Trellis) (layer : ℕ) (weights : List ℕ) :
    Except TrellisError Unit × Trellis :=
  match t.nodeRange layer with
  | .error e => (.error e, t)
  | .ok range =>
    if weights.length ≠ range.len then
      (.error (.nodeLenMismatch layer range.len weights.length), t)
    else match weights.find? fun w => decide (maxWeight < w) with
      | some w => (.error (.weightTooLarge w), t)
      | none => (.ok (), { t with nodes := copyFromSlice t.nodes range weights })

/-! ### Windowing -/

/-- An owned copy of the layers `start, …, stop - 1`, keeping their node weights
and interior transitions. -/
def partition (t : Trellis) (start stop : ℕ) : Except TrellisError Trellis :=
  if stop ≤ start then .error .empty
  else if t.layers < stop then .error (.layerOutOfRange stop)
  else match t.nodeRange start, t.nodeRange (stop - 1) with
    | .ok first, .ok final => .ok
        { widths := slice t.widths ⟨start, stop⟩
          nodes := slice t.nodes ⟨first.start, final.stop⟩
          transitions := slice t.transitions ⟨start, stop - 1⟩ }
    | .error e, _ => .error e
    | _, .error e => .error e

/-- An owned copy of the last `n` layers. -/
def last (t : Trellis) (n : ℕ) : Except TrellisError Trellis :=
  let start := t.layers - n
  t.partition start t.layers

end Trellis

end Routers
