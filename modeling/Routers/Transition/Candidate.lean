import Routers.Network

/-!
# Candidates

A trajectory point is anchored to the network by candidates, each an edge with a
position along it.  Identity is placement: a candidate is known by its layer and its
node within the layer, and carries that place along.

## Main definitions

* `CandidateRef`, `Candidate`, `CandidateStore` — candidates, layer by layer.
* `RoutingContext` — the world a match is computed against.
* `ResolutionMethod`, `Reachable` — how one candidate is reached from another.
* `Candidate.directlyReachable` — travel along a shared edge alone.

## References

`src/libs/routers_transition/src/candidate/entry.rs`,
`src/libs/routers_transition/src/candidate/store.rs`,
`src/libs/routers_transition/src/candidate/ident.rs`,
`src/libs/routers_transition/src/primitives/routing.rs` and
`src/libs/routers_transition/src/primitives/resolve.rs`.
-/

namespace Routers

/-- The positional identity of a candidate. -/
structure CandidateRef where
  layer : ℕ
  node : ℕ
  deriving DecidableEq, Repr, Inhabited

/-- One possible anchoring of a trajectory point. -/
structure Candidate (E P : Type) where
  edge : Edge E
  position : P
  emission : ℕ
  location : CandidateRef
  deriving DecidableEq, Repr

/-- Every candidate considered for a match, layer by layer. -/
structure CandidateStore (E P : Type) where
  layers : List (List (Candidate E P))
  deriving DecidableEq, Repr

namespace Candidate

variable {E P : Type}

/-- The candidate, placed. -/
def place (location : CandidateRef) (c : Candidate E P) : Candidate E P :=
  { c with location := location }

/-- The candidate but for its place. -/
def anchor (c : Candidate E P) : Edge E × P × ℕ := (c.edge, c.position, c.emission)

@[simp] theorem anchor_place (location : CandidateRef) (c : Candidate E P) :
    (c.place location).anchor = c.anchor := rfl

@[simp] theorem location_place (location : CandidateRef) (c : Candidate E P) :
    (c.place location).location = location := rfl

/-- Candidates that differ in their places only. -/
theorem eq_place_of_anchor {c d : Candidate E P} (h : c.anchor = d.anchor) :
    ∃ location, d = c.place location := by
  refine ⟨d.location, ?_⟩
  cases c
  cases d
  simp only [anchor, Prod.mk.injEq] at h
  obtain ⟨rfl, rfl, rfl⟩ := h
  rfl

end Candidate

namespace CandidateStore

variable {E P : Type}

/-- A store of no layers. -/
def empty : CandidateStore E P := ⟨[]⟩

/-- Append one layer of candidates, in node order. -/
def pushLayer (s : CandidateStore E P) (candidates : List (Candidate E P)) : CandidateStore E P :=
  ⟨s.layers ++ [candidates]⟩

/-- Keep only the last `n` layers, each surviving candidate stamped anew with its layer. -/
def tail (s : CandidateStore E P) (n : ℕ) : CandidateStore E P :=
  let cut := s.layers.length - n
  if cut = 0 then s
  else
    ⟨(s.layers.drop cut).mapIdx fun layer candidates =>
      candidates.map fun c => { c with location := { c.location with layer := layer } }⟩

/-- The candidates of one layer, in node order. -/
def layer (s : CandidateStore E P) (layer : ℕ) : Option (List (Candidate E P)) := s.layers[layer]?

/-- The candidate behind a ref, if present. -/
def candidate (s : CandidateStore E P) (r : CandidateRef) : Option (Candidate E P) :=
  (s.layers[r.layer]?).bind fun candidates => candidates[r.node]?

/-- Every candidate is where its location says. -/
def Placed (s : CandidateStore E P) : Prop :=
  ∀ r c, s.candidate r = some c → c.location = r

/-- Every candidate, layer-major. -/
def iter (s : CandidateStore E P) : List (Candidate E P) := s.layers.flatten

theorem layer_pushLayer (s : CandidateStore E P) (candidates : List (Candidate E P)) (l : ℕ) :
    (s.pushLayer candidates).layer l
      = if l = s.layers.length then some candidates else s.layer l := by
  rw [layer, pushLayer, List.getElem?_append]
  rcases Nat.lt_trichotomy l s.layers.length with hlt | rfl | hgt
  · rw [if_pos hlt, if_neg hlt.ne, layer]
  · simp
  · rw [if_neg hgt.not_gt, if_neg hgt.ne', layer, List.getElem?_eq_none hgt.le]
    rw [List.getElem?_eq_none]
    rw [List.length_singleton]
    omega

theorem candidate_eq (s : CandidateStore E P) (r : CandidateRef) :
    s.candidate r = (s.layer r.layer).bind fun candidates => candidates[r.node]? := rfl

/-- A layer of a cut store is one of the store, stamped anew. -/
theorem layer_tail (s : CandidateStore E P) {n : ℕ} (hn : n < s.layers.length) (l : ℕ) :
    (s.tail n).layer l = (s.layer (s.layers.length - n + l)).map fun candidates =>
      candidates.map fun c => { c with location := { c.location with layer := l } } := by
  rw [layer, tail, if_neg (by omega), List.getElem?_mapIdx, List.getElem?_drop]
  rfl

theorem length_tail (s : CandidateStore E P) {n : ℕ} (hn : n < s.layers.length) :
    (s.tail n).layers.length = n := by
  rw [tail, if_neg (by omega), List.length_mapIdx, List.length_drop]
  omega

/-- A cut keeps the candidates but for their places. -/
theorem anchor_tail (s : CandidateStore E P) {n : ℕ} (hn : n < s.layers.length) (l : ℕ) :
    ((s.tail n).layer l).map (List.map Candidate.anchor)
      = (s.layer (s.layers.length - n + l)).map (List.map Candidate.anchor) := by
  rw [s.layer_tail hn, Option.map_map]
  congr 1
  funext candidates
  simp only [Function.comp, List.map_map]
  rfl

theorem Placed.tail {s : CandidateStore E P} (h : s.Placed) {n : ℕ} (hn : n < s.layers.length) :
    (s.tail n).Placed := by
  intro r c hc
  rw [candidate_eq, s.layer_tail hn] at hc
  obtain ⟨restamped, hlayer, hnode⟩ := Option.bind_eq_some_iff.mp hc
  obtain ⟨candidates, hold, rfl⟩ := Option.map_eq_some_iff.mp hlayer
  rw [List.getElem?_map, Option.map_eq_some_iff] at hnode
  obtain ⟨old, hget, rfl⟩ := hnode
  have hplace := h ⟨s.layers.length - n + r.layer, r.node⟩ old (by rw [candidate_eq, hold]; exact hget)
  rw [hplace]

theorem Placed.candidate_location {s : CandidateStore E P} (h : s.Placed) {l : ℕ}
    {candidates : List (Candidate E P)} (hl : s.layer l = some candidates) {c : Candidate E P}
    (hc : c ∈ candidates) : s.candidate c.location = some c := by
  obtain ⟨n, hn⟩ := List.getElem?_of_mem hc
  have hget : s.candidate ⟨l, n⟩ = some c := by
    rw [layer] at hl
    rw [candidate, hl]
    exact hn
  rw [h _ _ hget]
  exact hget

end CandidateStore

/-- The read-only world a match is computed against. -/
structure RoutingContext (E P M R : Type) where
  candidates : CandidateStore E P
  map : Network E P M R
  runtime : R

namespace RoutingContext

variable {E P M R : Type}

/-- Obtain a candidate, should it exist, by its ref. -/
def candidate (ctx : RoutingContext E P M R) (r : CandidateRef) : Option (Candidate E P) :=
  ctx.candidates.candidate r

/-- Obtain the edge, should it exist, between two nodes. -/
def edge [DecidableEq E] (ctx : RoutingContext E P M R) (a b : E) : Option (Edge E) :=
  ctx.map.edge a b

end RoutingContext

/-- How a transition asks to be resolved. -/
inductive ResolutionMethod
  | standard
  | distanceOnly
  deriving DecidableEq, Repr, Inhabited

/-- A target candidate reached from a source through a known path. -/
structure Reachable (E : Type) where
  source : CandidateRef
  target : CandidateRef
  path : List (Edge E)
  resolutionMethod : ResolutionMethod
  deriving DecidableEq, Repr

namespace Reachable

variable {E : Type}

/-- A reachable with an explicit routed path and the default resolution method. -/
def new (source target : CandidateRef) (path : List (Edge E)) : Reachable E :=
  ⟨source, target, path, .standard⟩

/-- Request the distance-only resolution. -/
def distanceOnly (r : Reachable E) : Reachable E := { r with resolutionMethod := .distanceOnly }

/-- A same-edge reachable: no routed path. -/
def direct (source target : CandidateRef) : Reachable E := (new source target []).distanceOnly

/-- The path as its sequence of nodes rather than edges. -/
def pathNodes (r : Reachable E) : List E :=
  match r.path.getLast? with
  | some last => r.path.map Edge.source ++ [last.target]
  | none => []

end Reachable

namespace Candidate

variable {E P M R : Type} [Geometry P]

/-- The fraction of the edge that lies behind the position. -/
def percentage (c : Candidate E P) (map : Network E P M R) : Option ℚ :=
  Geometry.lineLocatePoint (map.line [c.edge.source, c.edge.target]) c.position

/-- Whether `other` is reached by travelling along the shared edge alone; `none` when
the edge is too degenerate to tell. -/
def directlyReachable [DecidableEq E] (c other : Candidate E P) (map : Network E P M R) :
    Option Bool :=
  if c.edge.id.index ≠ other.edge.id.index then some false
  else
    let sameDirection :=
      decide (c.edge.source = other.edge.source) && decide (c.edge.target = other.edge.target)
    (c.percentage map).bind fun behind =>
      (other.percentage map).map fun ahead => sameDirection && decide (behind ≤ ahead)

end Candidate

end Routers
