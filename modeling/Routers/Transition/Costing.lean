import Routers.Transition.Expansion

/-!
# Costing and candidate generation

Two costs shape a match: emission prices anchoring a point to a candidate, transition
prices travelling between candidates.  Both are strategies of the caller's over what the
library puts into their contexts; the default ones are formulas in floats, taken as they
come.

A strategy or a generator is handed places: the layer a point is to fill, the refs of two
candidates and the store to look them up in.  Identity is the matcher's business, and
what they compute is not to depend on it.

## Main definitions

* `TransitionContext`, `EmissionContext`, `CostingStrategies` — the costs.
* `LayerGeneration`, `standardGenerator` — candidates for a point.
* `TransitionContext.Agree`, `CostingStrategies.Placeless`, `LayerGeneration.Placeless` —
  not to depend on places.

## References

`src/libs/routers_transition/src/costing/mod.rs`,
`src/libs/routers_transition/src/costing/default.rs`,
`src/libs/routers_transition/src/costing/emission.rs`,
`src/libs/routers_transition/src/costing/transition.rs`,
`src/libs/routers_transition/src/costing/util.rs` and
`src/libs/routers_transition/src/layer/generation/impls/standard.rs`.
-/

namespace Routers

variable {E P M R : Type}

/-! ### Transitions -/

/-- The bearings of the candidates' edges. -/
structure Headings where
  source : Option ℚ
  target : Option ℚ
  deriving DecidableEq, Repr

/-- The distances between the candidates' positions and the joints of the route. -/
structure VirtualTails where
  source : Option ℚ
  target : Option ℚ
  deriving DecidableEq, Repr

/-- The part of an edge on one side of a position. -/
inductive VirtualTail
  | toSource
  | toTarget
  deriving DecidableEq, Repr

namespace Candidate

variable [Geometry P]

/-- The bearing of the candidate's edge, unless its ends are less than a metre apart. -/
def edgeHeading (c : Candidate E P) (ctx : RoutingContext E P M R) : Option ℚ :=
  match ctx.map.point c.edge.source, ctx.map.point c.edge.target with
  | some s, some t => if Geometry.distance s t < 1 then none else some (Geometry.bearing s t)
  | _, _ => none

/-- The offset of the candidate from an end of its edge. -/
def offset (c : Candidate E P) (ctx : RoutingContext E P M R) : VirtualTail → Option ℚ
  | .toSource => (ctx.map.point c.edge.source).map fun source => Geometry.distance source c.position
  | .toTarget => (ctx.map.point c.edge.target).map fun target => Geometry.distance c.position target

end Candidate

/-- What a transition is priced by. -/
structure TransitionContext (E P : Type) where
  /-- The nodes of the optimal path with their points. -/
  optimalPath : List (P × E)
  sourcePosition : P
  targetPosition : P
  mapPath : List E
  sourceCandidate : CandidateRef
  targetCandidate : CandidateRef
  candidates : CandidateStore E P
  requestedResolutionMethod : ResolutionMethod
  headings : Headings
  virtualTails : VirtualTails

namespace TransitionContext

/-- The context of a transition along `mapPath`, `none` when a candidate is missing. -/
def new [Geometry P] (ctx : RoutingContext E P M R) (src trg : CandidateRef) (mapPath : List E) :
    Option (TransitionContext E P) :=
  match ctx.candidate src, ctx.candidate trg with
  | some source, some target => some
      { optimalPath := (ctx.map.line mapPath).zip mapPath
        sourcePosition := source.position
        targetPosition := target.position
        mapPath := mapPath
        sourceCandidate := src
        targetCandidate := trg
        candidates := ctx.candidates
        requestedResolutionMethod := default
        headings := ⟨source.edgeHeading ctx, target.edgeHeading ctx⟩
        virtualTails := ⟨source.offset ctx .toTarget, target.offset ctx .toSource⟩ }
  | _, _ => none

/-- Ask for another resolution method. -/
def withResolutionMethod (context : TransitionContext E P) (method : ResolutionMethod) :
    TransitionContext E P :=
  { context with requestedResolutionMethod := method }

/-- The contexts tell of the same transition, wherever its candidates are placed. -/
structure Agree (context context' : TransitionContext E P) : Prop where
  optimalPath : context.optimalPath = context'.optimalPath
  sourcePosition : context.sourcePosition = context'.sourcePosition
  targetPosition : context.targetPosition = context'.targetPosition
  mapPath : context.mapPath = context'.mapPath
  method : context.requestedResolutionMethod = context'.requestedResolutionMethod
  headings : context.headings = context'.headings
  virtualTails : context.virtualTails = context'.virtualTails
  source : (context.candidates.candidate context.sourceCandidate).map Candidate.anchor
    = (context'.candidates.candidate context'.sourceCandidate).map Candidate.anchor
  target : (context.candidates.candidate context.targetCandidate).map Candidate.anchor
    = (context'.candidates.candidate context'.targetCandidate).map Candidate.anchor

end TransitionContext

/-! ### Emissions -/

/-- What anchoring a point is priced by. -/
structure EmissionContext (P : Type) where
  candidatePosition : P
  sourcePosition : P
  distance : ℚ
  weight : ℕ

/-- The pair of strategies a match is priced by. -/
structure CostingStrategies (E P : Type) where
  emission : EmissionContext P → ℕ
  transition : TransitionContext E P → ℕ

/-- Where the candidates of a transition are placed makes no difference to its price. -/
def CostingStrategies.Placeless (costing : CostingStrategies E P) : Prop :=
  ∀ context context', TransitionContext.Agree context context' →
    costing.transition context = costing.transition context'

/-- The default transition cost: a formula in the geometry of the transition and the road
classes of its ends.  The code panics when a candidate is missing. -/
def defaultTransitionCost (formula : List (P × E) → P → P → ResolutionMethod → Headings →
      VirtualTails → Option ℕ → Option ℕ → ℕ) (context : TransitionContext E P) : ℕ :=
  let weight (r : CandidateRef) := (context.candidates.candidate r).map fun c => c.edge.weight
  formula context.optimalPath context.sourcePosition context.targetPosition
    context.requestedResolutionMethod context.headings context.virtualTails
    (weight context.sourceCandidate) (weight context.targetCandidate)

/-- The default transition cost does not depend on places. -/
theorem placeless_default (emission : EmissionContext P → ℕ)
    (formula : List (P × E) → P → P → ResolutionMethod → Headings → VirtualTails → Option ℕ →
      Option ℕ → ℕ) :
    (⟨emission, defaultTransitionCost formula⟩ : CostingStrategies E P).Placeless := by
  intro context context' h
  have hweight : ∀ c : Candidate E P, c.edge.weight = (Candidate.anchor c).1.weight := fun c => rfl
  have hsource := congrArg (Option.map fun anchor => anchor.1.weight) h.source
  have htarget := congrArg (Option.map fun anchor => anchor.1.weight) h.target
  simp only [Option.map_map, Function.comp_def, ← hweight] at hsource htarget
  simp only [defaultTransitionCost, h.optimalPath, h.sourcePosition, h.targetPosition, h.method,
    h.headings, h.virtualTails, hsource, htarget]

/-! ### Generating candidates -/

/-- Produces the candidates anchoring a point that is to fill a layer, in stable order. -/
structure LayerGeneration (E P : Type) where
  candidates : P → ℕ → List (Candidate E P)

namespace LayerGeneration

/-- The candidates of all points, one layer each from `firstLayer` on. -/
def generate (generator : LayerGeneration E P) (input : List P) (firstLayer : ℕ) :
    List (List (Candidate E P)) :=
  input.mapIdx fun offset origin => generator.candidates origin (firstLayer + offset)

/-- A candidate is priced by its edge and its position. -/
def Priced (generator : LayerGeneration E P) : Prop :=
  ∀ point layer, ∀ c ∈ generator.candidates point layer,
    ∀ d ∈ generator.candidates point layer, c.edge = d.edge → c.position = d.position →
      c.emission = d.emission

/-- The layer is there to be stamped on the candidates, and not to choose them. -/
def Placeless (generator : LayerGeneration E P) : Prop :=
  ∀ point layer layer', (generator.candidates point layer).map Candidate.anchor
    = (generator.candidates point layer').map Candidate.anchor

end LayerGeneration

/-- A radius search projected onto the edges nearby: what the network finds within the
search distance of a point, priced by the emission strategy. -/
def standardGenerator [Geometry P] (nearestNodesProjected : P → ℚ → List (P × Edge E))
    (searchDistance : ℚ) (emission : EmissionContext P → ℕ) : LayerGeneration E P where
  candidates origin layer :=
    (nearestNodesProjected origin searchDistance).mapIdx fun node found =>
      { edge := found.2
        position := found.1
        emission := emission
          { candidatePosition := found.1
            sourcePosition := origin
            distance := Geometry.distance found.1 origin
            weight := found.2.weight }
        location := ⟨layer, node⟩ }

theorem placeless_standardGenerator [Geometry P] (nearestNodesProjected : P → ℚ → List (P × Edge E))
    (searchDistance : ℚ) (emission : EmissionContext P → ℕ) :
    (standardGenerator nearestNodesProjected searchDistance emission).Placeless := by
  intro point layer layer'
  apply List.ext_getElem?
  intro node
  simp only [standardGenerator, List.getElem?_map, List.getElem?_mapIdx, Option.map_map]
  rfl

theorem priced_standardGenerator [Geometry P] (nearestNodesProjected : P → ℚ → List (P × Edge E))
    (searchDistance : ℚ) (emission : EmissionContext P → ℕ) :
    (standardGenerator nearestNodesProjected searchDistance emission).Priced := by
  intro point layer c hc d hd hedge hposition
  simp only [standardGenerator, List.mem_mapIdx] at hc hd
  obtain ⟨i, hi, rfl⟩ := hc
  obtain ⟨j, hj, rfl⟩ := hd
  simp only at hedge hposition ⊢
  rw [hedge, hposition]

end Routers
