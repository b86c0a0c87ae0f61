import Routers.Library.SharedMemory
import Routers.Transition.Matcher

/-!
# Matching over shared caches

All solves of a process share one cache of predicates, and the cache of successors behind it.  The
rows of a boundary are weighed side by side, and so are boundaries and whole solves.  Two of them
may miss the same key and calculate it twice, and what is in the caches may be evicted between any
two operations.  For one runtime, the one that the caches get bound to, none of this shows in what
is matched.

## Main definitions

* `CacheOp`, `SharedCaches`, `SharedCaches.perform` — the caches and the operations on them.
* `SharedCaches.contract` — what is asked of them and answered, for a network and a runtime.
* `PredicateCache.queryProg`, `Weigher.weighProg`, `Matcher.snapshotProg`, … — the operations of
  the matcher as programs over the caches.

## Main results

* `PredicateCache.yields_queryProg` — **a query yields the map the search builds.**
* `Matcher.yields_solveProg`, `Matcher.yields_snapshotProg`, `Matcher.yields_rMatchProg` — **matching
  over the caches yields what matching without them does.**

## References

`src/libs/routers_transition/src/primitives/cache.rs`,
`src/libs/routers_transition/src/weigh/mod.rs`, `src/libs/routers_transition/src/weigh/expansion.rs`
and `src/libs/routers_transition/src/matcher/entity.rs`.
-/

namespace Routers

open SharedMemory

variable {E P M R : Type}

/-! ### The caches -/

/-- An operation on the caches, or the panic of a failed assertion. -/
inductive CacheOp (E R : Type)
  /-- Bind the cache of predicates to a runtime, unless it is bound already. -/
  | bind (runtime : R)
  | readPredicates (key : E)
  | putPredicates (key : E) (value : Predicates E)
  | readSuccessors (key : E)
  | putSuccessors (key : E) (value : SuccessorWeights E)
  | panic

/-- What an operation answers: the runtime that is bound, an entry, nothing; a panic does not. -/
abbrev CacheOp.Answer : CacheOp E R → Type
  | bind _ => R
  | readPredicates _ => Option (Predicates E)
  | putPredicates .. => Unit
  | readSuccessors _ => Option (SuccessorWeights E)
  | putSuccessors .. => Unit
  | panic => Empty

/-- A program over the caches. -/
abbrev CacheProg (E R A : Type) : Type 1 := Prog (CacheOp E R) CacheOp.Answer A

/-- The caches that the solves of a process share. -/
structure SharedCaches (E R : Type) where
  predicates : E → Option (Predicates E)
  successors : E → Option (SuccessorWeights E)
  boundRuntime : Option R

namespace SharedCaches

/-- Nothing is cached, and no runtime is bound. -/
def empty : SharedCaches E R := ⟨fun _ => none, fun _ => none, none⟩

variable [DecidableEq E]

/-- Put an entry, unless there is one. -/
def put {V : Type} (entries : E → Option V) (key : E) (value : V) : E → Option V :=
  if (entries key).isSome then entries else Function.update entries key (some value)

/-- What an operation answers, and what it leaves; the runtime bound is the first one that asks. -/
def perform : (op : CacheOp E R) → SharedCaches E R → Option (op.Answer × SharedCaches E R)
  | .bind runtime, s =>
    let bound := s.boundRuntime.getD runtime
    some (bound, { s with boundRuntime := some bound })
  | .readPredicates key, s => some (s.predicates key, s)
  | .putPredicates key value, s => some ((), { s with predicates := put s.predicates key value })
  | .readSuccessors key, s => some (s.successors key, s)
  | .putSuccessors key value, s => some ((), { s with successors := put s.successors key value })
  | .panic, _ => none

omit [DecidableEq E] in
/-- Some entries have been evicted. -/
structure Evicted (s s' : SharedCaches E R) : Prop where
  predicates : ∀ key, s'.predicates key = s.predicates key ∨ s'.predicates key = none
  successors : ∀ key, s'.successors key = s.successors key ∨ s'.successors key = none
  boundRuntime : s'.boundRuntime = s.boundRuntime

end SharedCaches

/-! ### Queries -/

namespace SuccessorsCache

/-- Read the entry, or calculate it and put it. -/
def queryProg (ctx : RoutingContext E P M R) [DecidableEq E] [Geometry P] (key : E) :
    CacheProg E R (SuccessorWeights E) :=
  .ask (.readSuccessors key) fun
    | some value => .pure value
    | none =>
      let calculated := calculate ctx key
      .ask (.putSuccessors key calculated) fun _ => .pure calculated

end SuccessorsCache

variable [DecidableEq E]

namespace DijkstraReachable

variable {heap : Heap}

/-- The rounds of `next`, over a program that asks for successors. -/
def nextLoopProg (successors : E → CacheProg E R (List (E × WeightAndDistance))) :
    ℕ → DijkstraReachable E heap →
      CacheProg E R (Option (DijkstraReachableItem E × DijkstraReachable E heap))
  | 0, _ => .pure none
  | fuel + 1, s =>
    match heap.pop s.toSee with
    | none => .pure none
    | some (holder, toSee) =>
      let s := { s with toSee := toSee }
      if holder.index ∈ s.seen then nextLoopProg successors fuel s
      else
        match s.parents[holder.index]? with
        | none => .pure none
        | some entry =>
          (successors entry.1).map fun asked => some (s.item entry, s.settle holder asked)

end DijkstraReachable

/-- The items a search yields while they are wanted. -/
def Dijkstra.itemsProg {heap : Heap}
    (successors : E → CacheProg E R (List (E × WeightAndDistance)))
    (wanted : WeightAndDistance → Bool) :
    ℕ → DijkstraReachable E heap → CacheProg E R (List (DijkstraReachableItem E))
  | 0, _ => .pure []
  | fuel + 1, s =>
    (s.nextLoopProg successors (heap.items s.toSee).length).bind fun
      | none => .pure []
      | some (item, s) =>
        if wanted item.totalCost then
          (itemsProg successors wanted fuel s).map (item :: ·)
        else .pure []

variable [Inhabited E] [Geometry P] [DecidableEq R]

namespace PredicateCache

/-- Bind the cache, and run the search unless it is bound to another runtime. -/
def calculateProg (heap : Heap) (reach : ℕ) (ctx : RoutingContext E P M R) (key : E) :
    CacheProg E R (Predicates E) :=
  .ask (.bind ctx.runtime) fun (bound : R) =>
    if bound ≠ ctx.runtime then .ask .panic Empty.elim
    else
      let successors (node : E) :=
        (SuccessorsCache.queryProg ctx node).map fun asked => asked.map fun s => (s.1, s.2.2)
      (Dijkstra.itemsProg successors (within reach) (ctx.map.graph.length + 1)
        (Dijkstra.reach heap key)).map collect

/-- Read the entry, or calculate it and put it. -/
def queryProg (heap : Heap) (reach : ℕ) (ctx : RoutingContext E P M R) (key : E) :
    CacheProg E R (Predicates E) :=
  .ask (.readPredicates key) fun
    | some value => .pure value
    | none =>
      (calculateProg heap reach ctx key).bind fun calculated =>
        .ask (.putPredicates key calculated) fun _ => .pure calculated

end PredicateCache

/-! ### What is asked and answered -/

section Contract

variable (heap : Heap) (reach : ℕ) (map : Network E P M R) (runtime : R)

namespace SharedCaches

/-- What the caches hold is right for the runtime, and they are bound to no other. -/
structure SoundFor (s : SharedCaches E R) : Prop where
  predicates : ∀ key value, s.predicates key = some value →
    value = PredicateCache.predicates heap reach ⟨CandidateStore.empty, map, runtime⟩ key
  successors : ∀ key value, s.successors key = some value →
    value = SuccessorsCache.calculate ⟨CandidateStore.empty, map, runtime⟩ key
  bound : s.boundRuntime = none ∨ s.boundRuntime = some runtime

/-- What may be asked by those who have the runtime. -/
def Asks : CacheOp E R → Prop
  | .bind bound => bound = runtime
  | .putPredicates key value =>
    value = PredicateCache.predicates heap reach ⟨CandidateStore.empty, map, runtime⟩ key
  | .putSuccessors key value =>
    value = SuccessorsCache.calculate ⟨CandidateStore.empty, map, runtime⟩ key
  | .readPredicates _ => True
  | .readSuccessors _ => True
  | .panic => False

/-- What they are answered. -/
def Says : (op : CacheOp E R) → op.Answer → Prop
  | .bind _, bound => bound = runtime
  | .readPredicates key, answer => ∀ value, answer = some value →
    value = PredicateCache.predicates heap reach ⟨CandidateStore.empty, map, runtime⟩ key
  | .readSuccessors key, answer => ∀ value, answer = some value →
    value = SuccessorsCache.calculate ⟨CandidateStore.empty, map, runtime⟩ key
  | .putPredicates .., _ => True
  | .putSuccessors .., _ => True
  | .panic, _ => True

omit [Inhabited E] [Geometry P] [DecidableEq R] in
theorem put_sound {V : Type} {entries : E → Option V} {f : E → V}
    (h : ∀ key value, entries key = some value → value = f key) (k : E) :
    ∀ key value, put entries k (f k) key = some value → value = f key := by
  intro key value hvalue
  unfold put at hvalue
  split at hvalue
  · exact h key value hvalue
  · by_cases hkey : key = k
    · subst hkey
      rw [Function.update_self] at hvalue
      exact (Option.some.inj hvalue).symm
    · rw [Function.update_of_ne hkey] at hvalue
      exact h key value hvalue

omit [DecidableEq R] in
/-- The caches answer as agreed. -/
def contract : Contract (perform (E := E) (R := R)) where
  Asks := Asks heap reach map runtime
  Says := Says heap reach map runtime
  Keeps := SoundFor heap reach map runtime
  performs := by
    intro op s hasks hs
    cases op with
    | bind bound =>
      obtain rfl : bound = runtime := hasks
      have hbound : s.boundRuntime.getD bound = bound := by
        obtain h | h := hs.bound
        · rw [h, Option.getD_none]
        · rw [h, Option.getD_some]
      exact ⟨_, _, rfl, hbound, { hs with bound := Or.inr (congrArg some hbound) }⟩
    | readPredicates key => exact ⟨_, _, rfl, hs.predicates key, hs⟩
    | putPredicates key value =>
      obtain rfl := hasks
      exact ⟨_, _, rfl, trivial, { hs with predicates := put_sound hs.predicates key }⟩
    | readSuccessors key => exact ⟨_, _, rfl, hs.successors key, hs⟩
    | putSuccessors key value =>
      obtain rfl := hasks
      exact ⟨_, _, rfl, trivial, { hs with successors := put_sound hs.successors key }⟩
    | panic => exact hasks.elim

omit [DecidableEq R] in
theorem soundFor_empty : (empty : SharedCaches E R).SoundFor heap reach map runtime :=
  ⟨nofun, nofun, Or.inl rfl⟩

variable {heap reach map runtime}

omit [DecidableEq R] in
/-- Evictions leave what is right. -/
theorem SoundFor.evicted {s s' : SharedCaches E R} (h : s.Evicted s')
    (hs : s.SoundFor heap reach map runtime) : s'.SoundFor heap reach map runtime := by
  refine ⟨fun key value hvalue => ?_, fun key value hvalue => ?_, h.boundRuntime ▸ hs.bound⟩
  · obtain heq | heq := h.predicates key
    · exact hs.predicates key value (heq ▸ hvalue)
    · cases heq.symm.trans hvalue
  · obtain heq | heq := h.successors key
    · exact hs.successors key value (heq ▸ hvalue)
    · cases heq.symm.trans hvalue

end SharedCaches

open SharedCaches

variable {heap reach} (ctx : RoutingContext E P M R)

omit [DecidableEq R] in
theorem SuccessorsCache.yields_queryProg (key : E) :
    (queryProg ctx key).Yields (contract heap reach ctx.map ctx.runtime) (calculate ctx key) := by
  refine ⟨trivial, fun answer hanswer => ?_⟩
  cases answer with
  | some value => exact hanswer value rfl
  | none => exact ⟨rfl, fun _ _ => rfl⟩

omit [Inhabited E] [DecidableEq R] in
theorem DijkstraReachable.yields_nextLoopProg {c : Contract (perform (E := E) (R := R))}
    {successors : E → CacheProg E R (List (E × WeightAndDistance))}
    {f : E → List (E × WeightAndDistance)} (h : ∀ node, (successors node).Yields c (f node))
    (fuel : ℕ) (s : DijkstraReachable E heap) :
    (nextLoopProg successors fuel s).Yields c
      ((nextLoop (stateless f) fuel s ()).map fun next => (next.1, next.2.1)) := by
  induction fuel generalizing s with
  | zero => rfl
  | succ fuel ih =>
    unfold nextLoopProg nextLoop
    cases heap.pop s.toSee with
    | none => rfl
    | some popped =>
      obtain ⟨holder, toSee⟩ := popped
      dsimp only
      by_cases hseen : holder.index ∈ s.seen
      · rw [if_pos hseen, if_pos hseen]
        exact ih _
      · rw [if_neg hseen, if_neg hseen]
        cases s.parents[holder.index]? with
        | none => rfl
        | some entry => exact (h _).map

omit [Inhabited E] [DecidableEq R] in
theorem Dijkstra.yields_itemsProg {c : Contract (perform (E := E) (R := R))}
    {successors : E → CacheProg E R (List (E × WeightAndDistance))}
    {f : E → List (E × WeightAndDistance)} (h : ∀ node, (successors node).Yields c (f node))
    (wanted : WeightAndDistance → Bool) (fuel : ℕ) (s : DijkstraReachable E heap) :
    (itemsProg successors wanted fuel s).Yields c
      (items (DijkstraReachable.stateless f) wanted fuel s ()).1 := by
  induction fuel generalizing s with
  | zero => rfl
  | succ fuel ih =>
    unfold itemsProg items
    refine (DijkstraReachable.yields_nextLoopProg h _ s).bind ?_
    unfold DijkstraReachable.next
    cases s.nextLoop (DijkstraReachable.stateless f) (heap.items s.toSee).length () with
    | none => rfl
    | some next =>
      obtain ⟨item, s, -⟩ := next
      dsimp only [Option.map_some]
      by_cases hwanted : wanted item.totalCost = true
      · rw [if_pos hwanted, if_pos hwanted]
        exact (ih _).map
      · rw [if_neg hwanted, if_neg hwanted]
        rfl

/-- **A query yields the map the search builds**, whatever of it is in the caches. -/
theorem PredicateCache.yields_queryProg (key : E) :
    (queryProg heap reach ctx key).Yields (contract heap reach ctx.map ctx.runtime)
      (predicates heap reach ctx key) := by
  refine ⟨trivial, fun answer hanswer => ?_⟩
  cases answer with
  | some value => exact hanswer value rfl
  | none =>
    have hcalculate : (calculateProg heap reach ctx key).Yields
        (contract heap reach ctx.map ctx.runtime) (predicates heap reach ctx key) := by
      refine ⟨rfl, fun bound hbound => ?_⟩
      have hbound : bound = ctx.runtime := hbound
      simp only [ne_eq, hbound, not_true_eq_false, if_false]
      exact (Dijkstra.yields_itemsProg
        (fun node => (SuccessorsCache.yields_queryProg ctx node).map) _ _ _).map
    exact hcalculate.bind ⟨rfl, fun _ _ => rfl⟩

end Contract

/-! ### Matching -/

namespace Expansion

/-- How `to` is reached from `src`, by a query of the cache. -/
def reachProg (heap : Heap) (reachDistance : ℕ) (ctx : RoutingContext E P M R)
    (src dst : CandidateRef) : CacheProg E R (Option (Reachable E)) :=
  match ctx.candidate src, ctx.candidate dst with
  | some source, some target =>
    match source.directlyReachable target ctx.map with
    | none => .pure none
    | some true => .pure (some (Reachable.direct src dst))
    | some false =>
      (PredicateCache.queryProg heap reachDistance ctx source.edge.target).map fun parents =>
        ((parents.path source.edge.target target.edge.source).map (edgesAlong ctx)).map
          (Reachable.new src dst)
  | _, _ => .pure none

end Expansion

namespace Weigher

variable (weigher : Weigher E P M R) (costing : CostingStrategies E P)

/-- The route between two candidates, over the caches. -/
def reachProg (ctx : RoutingContext E P M R) (src dst : CandidateRef) :
    CacheProg E R (Option (Reachable E)) :=
  Expansion.reachProg weigher.heap weigher.reachDistance ctx src dst

/-- The weight of the hop between two candidates, over the caches. -/
def hopProg (ctx : RoutingContext E P M R) (src dst : CandidateRef) : CacheProg E R (Option ℕ) :=
  (weigher.reachProg ctx src dst).map fun
    | none => none
    | some reachable =>
      (TransitionContext.new ctx reachable.source reachable.target reachable.pathNodes).map
        fun context =>
          min (costing.transition (context.withResolutionMethod reachable.resolutionMethod))
            maxWeight

/-- Weigh one place of a row, over the caches. -/
def weighTargetProg (ctx : RoutingContext E P M R) (source : Candidate E P)
    (toLayer : List (Candidate E P)) (row : List ℕ) (dst : ℕ) : CacheProg E R (List ℕ) :=
  match toLayer[dst]? with
  | none => .pure row
  | some target =>
    (weigher.hopProg costing ctx source.location target.location).map fun
      | some cost => row.set dst cost
      | none => row

/-- The targets of a row are weighed one after the other. -/
def weighSourceProg (ctx : RoutingContext E P M R) (toLayer : List (Candidate E P))
    (source : Candidate E P) : CacheProg E R (List ℕ) :=
  Prog.foldl (weigher.weighTargetProg costing ctx source toLayer)
    (List.replicate toLayer.length noEdge) (weigher.select ctx source toLayer)

/-- The rows of a boundary are weighed side by side. -/
def weighBoundaryProg (ctx : RoutingContext E P M R) (boundary : ℕ) : CacheProg E R (List ℕ) :=
  match ctx.candidates.layer boundary, ctx.candidates.layer (boundary + 1) with
  | some fromLayer, some toLayer =>
    (Prog.all (fromLayer.map (weigher.weighSourceProg costing ctx toLayer))).map List.flatten
  | _, _ => .pure []

/-- And so are the pending boundaries. -/
def weighProg (ctx : RoutingContext E P M R) (t : Trellis) :
    CacheProg E R (Except (MatchError P) Unit × Trellis) :=
  let pending := t.boundaries.filter fun boundary => !t.isResolved boundary
  (Prog.all (pending.map fun boundary =>
    (weigher.weighBoundaryProg costing ctx boundary).map (boundary, ·))).map fun weighed =>
      fillAll weighed t

variable (ctx : RoutingContext E P M R)

/-- The caches answer for the weigher, in a context. -/
abbrev contract (weigher : Weigher E P M R) (ctx : RoutingContext E P M R) :
    Contract (SharedCaches.perform (E := E) (R := R)) :=
  SharedCaches.contract weigher.heap weigher.reachDistance ctx.map ctx.runtime

theorem yields_reachProg (src dst : CandidateRef) :
    (weigher.reachProg ctx src dst).Yields (weigher.contract ctx) (weigher.reach ctx src dst) := by
  unfold reachProg Expansion.reachProg reach Expansion.reach
  cases ctx.candidate src with
  | none => rfl
  | some source =>
    cases ctx.candidate dst with
    | none => rfl
    | some target =>
      dsimp only
      cases source.directlyReachable target ctx.map with
      | none => rfl
      | some direct =>
        cases direct with
        | true => rfl
        | false => exact (PredicateCache.yields_queryProg ctx source.edge.target).map

theorem yields_hopProg (src dst : CandidateRef) :
    (weigher.hopProg costing ctx src dst).Yields (weigher.contract ctx)
      (weigher.hop costing ctx src dst) := by
  unfold hop
  refine (weigher.yields_reachProg ctx src dst).bind ?_
  cases weigher.reach ctx src dst with
  | none => rfl
  | some reachable => rfl

theorem yields_weighTargetProg (source : Candidate E P) (toLayer : List (Candidate E P))
    (row : List ℕ) (dst : ℕ) :
    (weigher.weighTargetProg costing ctx source toLayer row dst).Yields (weigher.contract ctx)
      (weigher.weighTarget costing ctx source toLayer row dst) := by
  unfold weighTargetProg weighTarget
  cases toLayer[dst]? with
  | none => rfl
  | some target =>
    dsimp only
    refine (weigher.yields_hopProg costing ctx source.location target.location).bind ?_
    cases weigher.hop costing ctx source.location target.location with
    | none => rfl
    | some cost => rfl

theorem yields_weighSourceProg (toLayer : List (Candidate E P)) (source : Candidate E P) :
    (weigher.weighSourceProg costing ctx toLayer source).Yields (weigher.contract ctx)
      (weigher.weighSource costing ctx toLayer source) :=
  Prog.yields_foldl
    (fun row dst _ => weigher.yields_weighTargetProg costing ctx source toLayer row dst) _

theorem yields_weighBoundaryProg (boundary : ℕ) :
    (weigher.weighBoundaryProg costing ctx boundary).Yields (weigher.contract ctx)
      (weigher.weighBoundary costing ctx boundary) := by
  unfold weighBoundaryProg weighBoundary
  cases ctx.candidates.layer boundary with
  | none => rfl
  | some fromLayer =>
    cases ctx.candidates.layer (boundary + 1) with
    | none => rfl
    | some toLayer =>
      exact (Prog.yields_all fun source _ =>
        weigher.yields_weighSourceProg costing ctx toLayer source).map

/-- **Weighing over the caches** does to a trellis what weighing does. -/
theorem yields_weighProg (t : Trellis) :
    (weigher.weighProg costing ctx t).Yields (weigher.contract ctx)
      (weigher.weigh costing ctx t) :=
  (Prog.yields_all fun boundary _ =>
    (weigher.yields_weighBoundaryProg costing ctx boundary).map).map

end Weigher

namespace Matcher

variable [Inhabited P] (m : Matcher E P M R)

/-- Solve a trip, over the caches. -/
def solveProg (trip : Trip E P) : CacheProg E R (Except (MatchError P) Path × Trip E P) :=
  match trip.state with
  | .empty => .pure (.error (.trellisError .empty), trip.restore .empty)
  | .solved solved => .pure (.ok solved.path, trip.restore (.solved solved))
  | .building trellis =>
    (m.weigher.weighProg m.heuristics (m.context trip) trellis).map fun
    | (.error e, trellis) => (.error e, trip.restore (.building trellis))
    | (.ok (), trellis) =>
      let gaps := trellis.disconnections
      if !gaps.isEmpty then (.error (disconnected trip gaps), trip.restore (.building trellis))
      else
        match trellis.solve with
        | .ok solved => (.ok solved.path, trip.restore (.solved solved))
        | .error (trellis, .unreachable) =>
          (.error (disconnected trip (frontierCollapse trellis)), trip.restore (.building trellis))
        | .error (trellis, e) => (.error (.solveError e), trip.restore (.building trellis))

/-- The hops are queried again, one after the other. -/
def collapseProg (trip : Trip E P) :
    CacheProg E R (Except (MatchError P) (Collapse E) × Trip E P) :=
  (m.solveProg trip).bind fun
    | (.error e, trip) => .pure (.error e, trip)
    | (.ok path, trip) =>
      let route := routeOf path
      (Prog.filterMap (fun hop => m.weigher.reachProg (m.context trip) hop.1 hop.2)
        (route.zip route.tail)).map fun interpolated => (.ok ⟨path.cost, route, interpolated⟩, trip)

/-- What a solved trip collapses to, over the caches. -/
def snapshotProg (trip : Trip E P) :
    CacheProg E R (Except (MatchError P) (CollapsedPath E P) × Trip E P) :=
  (m.collapseProg trip).map fun
    | (.error e, trip) => (.error e, trip)
    | (.ok collapse, trip) =>
      (.ok ⟨collapse.cost, collapse.route, collapse.interpolated, trip.candidates⟩, trip)

/-- Match a line of points, over the caches. -/
def rMatchProg (linestring : List P) :
    CacheProg E R (Except (MatchError P) (CollapsedPath E P)) :=
  let origins := linestring.mapIdx fun index point => (⟨point, index⟩ : Origin P)
  match m.extend Trip.new origins with
  | (.error e, _) => .pure (.error e)
  | (.ok (), trip) =>
    (m.collapseProg trip).map fun
      | (.error e, _) => .error e
      | (.ok collapse, trip) =>
        .ok ⟨collapse.cost, collapse.route, collapse.interpolated, trip.candidates⟩

/-- The caches answer for the matcher. -/
abbrev contract : Contract (SharedCaches.perform (E := E) (R := R)) :=
  SharedCaches.contract m.weigher.heap m.weigher.reachDistance m.map m.runtime

/-- **Solving over the caches** is solving. -/
theorem yields_solveProg (trip : Trip E P) :
    (m.solveProg trip).Yields m.contract (m.solve trip) := by
  unfold solveProg solve
  cases trip.state with
  | empty => rfl
  | solved solved => rfl
  | building trellis =>
    dsimp only
    refine (m.weigher.yields_weighProg m.heuristics (m.context trip) trellis).bind ?_
    obtain ⟨result, trellis⟩ := m.weigher.weigh m.heuristics (m.context trip) trellis
    cases result with
    | error e => rfl
    | ok _ => rfl

theorem yields_collapseProg (trip : Trip E P) :
    (m.collapseProg trip).Yields m.contract (m.collapse trip) := by
  unfold collapse
  refine (m.yields_solveProg trip).bind ?_
  obtain ⟨result, trip⟩ := m.solve trip
  cases result with
  | error e => rfl
  | ok path =>
    exact (Prog.yields_filterMap fun hop _ =>
      m.weigher.yields_reachProg (m.context trip) hop.1 hop.2).map

/-- **Snapshots over the caches** are snapshots. -/
theorem yields_snapshotProg (trip : Trip E P) :
    (m.snapshotProg trip).Yields m.contract (m.snapshot trip) := by
  unfold snapshot
  refine (m.yields_collapseProg trip).bind ?_
  obtain ⟨result, trip⟩ := m.collapse trip
  cases result with
  | error e => rfl
  | ok collapse => rfl

/-- **Matching over the caches** is matching. -/
theorem yields_rMatchProg (linestring : List P) :
    (m.rMatchProg linestring).Yields m.contract (m.rMatch linestring) := by
  unfold rMatchProg rMatch
  dsimp only
  obtain ⟨result, trip⟩ := m.extend Trip.new _
  cases result with
  | error e => rfl
  | ok _ =>
    dsimp only
    refine (m.yields_collapseProg trip).bind ?_
    obtain ⟨result, trip⟩ := m.collapse trip
    cases result with
    | error e => rfl
    | ok collapse => rfl

end Matcher

end Routers
