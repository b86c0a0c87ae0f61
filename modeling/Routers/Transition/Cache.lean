import Routers.Library.ReadThrough
import Routers.Transition.Candidate
import Routers.Transition.Search

/-!
# The reachability cache

A weigher asks a read-through cache for the parent-pointer map of the bounded search
rooted at a node; the search in turn asks a second cache for successors.  Both hold
what is right for one runtime only.  The outer one is bound to the runtime of its first
calculation and refuses to calculate for another, but it answers what it still holds
without a look at the runtime.

## Main definitions

* `SuccessorsCache`, `PredicateCache` — the two caches.
* `PredicateCache.predicates` — the map the search builds, no cache involved.
* `PredicateCache.Step`, `run` — a history of queries and evictions.

## Main results

* `PredicateCache.Inv.answer_bound` — every answer is right for the runtime the cache is bound to.
* `PredicateCache.run_own_runtime` — **when every answer is right for its own.**
* `PredicateCache.run_other_runtime` — a history with an answer that is not.

## References

`src/libs/routers_transition/src/primitives/cache.rs`.
-/

namespace Routers

variable {E P M R : Type} [DecidableEq E] [Geometry P]

/-! ### Successors -/

/-- The edges a runtime may leave a node by, each with its end and its cost. -/
abbrev SuccessorWeights (E : Type) := List (E × DirectionAwareEdgeId E × WeightAndDistance)

/-- The cache behind the search; it keeps no metadata. -/
abbrev SuccessorsCache (E : Type) := ReadThrough.Cache E (SuccessorWeights E) Unit

namespace SuccessorsCache

/-- The accessible edges out of a node. -/
def calculate (ctx : RoutingContext E P M R) (key : E) : SuccessorWeights E :=
  ((ctx.map.edgesOutof key).filter (ctx.map.isOpen ctx.runtime)).map fun e =>
    (e.target, e.id, WeightAndDistance.new e.weight (ctx.map.distanceCm key e.target))

/-- Query the cache; its calculation never refuses. -/
def query (evicts : ℕ → E → Bool) (ctx : RoutingContext E P M R) (cache : SuccessorsCache E)
    (key : E) : SuccessorWeights E × SuccessorsCache E :=
  let answer := ReadThrough.Cache.query evicts (fun _ key => (some (calculate ctx key), ())) cache key
  (answer.1.getD [], answer.2)

/-- A query of a sound cache answers with the successors and leaves it sound. -/
theorem query_sound (evicts : ℕ → E → Bool) {ctx : RoutingContext E P M R}
    {cache : SuccessorsCache E} (h : cache.Sound (calculate ctx)) (key : E) :
    (query evicts ctx cache key).1 = calculate ctx key ∧
      (query evicts ctx cache key).2.Sound (calculate ctx) := by
  obtain ⟨hval, hsound⟩ := h.query evicts (fun _ key => (some (calculate ctx key), ())) key
    fun v hv => (Option.some.inj hv).symm
  obtain ⟨v, hv⟩ := Option.isSome_iff_exists.mp (ReadThrough.Cache.isSome_query evicts
    (fun _ key => (some (calculate ctx key), ())) cache key rfl)
  refine ⟨?_, hsound⟩
  rw [query, hv, hval v hv]
  rfl

end SuccessorsCache

/-- The successors of a node as the search wants them. -/
def successors (ctx : RoutingContext E P M R) (node : E) : List (E × WeightAndDistance) :=
  (SuccessorsCache.calculate ctx node).map fun s => (s.1, s.2.2)

theorem mem_successors {ctx : RoutingContext E P M R} {node target : E} {cost : WeightAndDistance} :
    (target, cost) ∈ successors ctx node ↔ ∃ e ∈ ctx.map.graph, e.source = node ∧
      e.target = target ∧ ctx.map.isOpen ctx.runtime e = true ∧
      cost = WeightAndDistance.new e.weight (ctx.map.distanceCm node target) := by
  simp only [successors, SuccessorsCache.calculate, List.map_map, List.mem_map, List.mem_filter,
    Network.mem_edgesOutof, Function.comp, Prod.mk.injEq]
  constructor
  · rintro ⟨e, ⟨⟨hmem, hsrc⟩, hopen⟩, rfl, rfl⟩
    exact ⟨e, hmem, hsrc, rfl, hopen, rfl⟩
  · rintro ⟨e, hmem, hsrc, rfl, hopen, rfl⟩
    exact ⟨e, ⟨⟨hmem, hsrc⟩, hopen⟩, rfl, rfl⟩

/-! ### Predicates -/

/-- The parent-pointer map of a bounded search: the nodes reached, each with the node
it was reached from. -/
structure Predicates (E : Type) where
  entries : List (E × E)
  deriving DecidableEq, Repr

namespace Predicates

/-- The parent of a node. -/
def get (p : Predicates E) (key : E) : Option E :=
  (p.entries.find? fun entry => entry.1 = key).map Prod.snd

end Predicates

/-- What a predicate cache holds besides its entries: the successors' cache, how far it
reaches in whole centimetres, and the runtime it is bound to, set on its first
calculation.  The code keeps the reach as a length; of the distances a cost can hold it
lies above exactly those below some number of centimetres. -/
structure PredicateMetadata (E R : Type) where
  successors : SuccessorsCache E
  reach : ℕ
  boundRuntime : Option R

/-- The reachability cache a weigher answers routing queries from. -/
abbrev PredicateCache (E R : Type) := ReadThrough.Cache E (Predicates E) (PredicateMetadata E R)

/-- What each `put` into the two caches evicts. -/
structure Evictions (E : Type) where
  successors : ℕ → E → Bool
  predicates : ℕ → E → Bool

namespace PredicateCache

/-- An empty cache whose entries reach `reach` centimetres. -/
def withReachDistance (reach : ℕ) : PredicateCache E R :=
  ReadThrough.Cache.empty ⟨ReadThrough.Cache.empty (), reach, none⟩

/-- Whether the search goes on past a cost. -/
def within (reach : ℕ) (cost : WeightAndDistance) : Bool := cost.distanceCm < reach

/-- The parent-pointer map of the items a search yields. -/
def collect [Inhabited E] (items : List (DijkstraReachableItem E)) : Predicates E :=
  ⟨items.map fun item => (item.node, item.parent.getD default)⟩

/-- The map the bounded search rooted at a node builds.  Each round settles a node, the
root or the end of an edge. -/
def predicates [Inhabited E] (heap : Heap) (reach : ℕ) (ctx : RoutingContext E P M R) (key : E) :
    Predicates E :=
  collect (Dijkstra.items (DijkstraReachable.stateless (successors ctx)) (within reach)
    (ctx.map.graph.length + 1) (Dijkstra.reach heap key) ()).1

variable [Inhabited E] [DecidableEq R] (heap : Heap) (evictions : Evictions E)

/-- Run the search, or refuse a runtime the cache is not bound to: the assertion of the
code fires after the cache has been bound. -/
def calculate (ctx : RoutingContext E P M R) (metadata : PredicateMetadata E R) (key : E) :
    Option (Predicates E) × PredicateMetadata E R :=
  let bound := metadata.boundRuntime.getD ctx.runtime
  let metadata := { metadata with boundRuntime := some bound }
  if bound ≠ ctx.runtime then (none, metadata)
  else
    let successors (node : E) (cache : SuccessorsCache E) :=
      let answer := SuccessorsCache.query evictions.successors ctx cache node
      (answer.1.map fun s => (s.1, s.2.2), answer.2)
    let items := Dijkstra.items successors (within metadata.reach) (ctx.map.graph.length + 1)
      (Dijkstra.reach heap key) metadata.successors
    (some (collect items.1), { metadata with successors := items.2 })

/-- Query the cache. -/
def query (ctx : RoutingContext E P M R) (cache : PredicateCache E R) (key : E) :
    Option (Predicates E) × PredicateCache E R :=
  ReadThrough.Cache.query evictions.predicates (calculate heap evictions ctx) cache key

/-- The metadata is bound to nothing, or to `runtime` with successors right for it. -/
structure MetadataSound (ctx : RoutingContext E P M R) (reach : ℕ)
    (metadata : PredicateMetadata E R) : Prop where
  reach_eq : metadata.reach = reach
  bound : metadata.boundRuntime = some ctx.runtime ∨ metadata.boundRuntime = none
  successors : metadata.successors.Sound (SuccessorsCache.calculate ctx)

omit [Inhabited E] [DecidableEq R] in
/-- Candidates have no part in reachability. -/
theorem MetadataSound.of_candidates {candidates : CandidateStore E P} {map : Network E P M R}
    {runtime : R} {reach : ℕ} {metadata : PredicateMetadata E R}
    (h : MetadataSound ⟨candidates, map, runtime⟩ reach metadata)
    (candidates' : CandidateStore E P) :
    MetadataSound ⟨candidates', map, runtime⟩ reach metadata :=
  ⟨h.reach_eq, h.bound, h.successors⟩

/-- A calculation on sound metadata binds the cache, and builds the map of the search. -/
theorem calculate_sound {ctx : RoutingContext E P M R} {reach : ℕ}
    {metadata : PredicateMetadata E R} (h : MetadataSound ctx reach metadata) (key : E) :
    (calculate heap evictions ctx metadata key).1 = some (predicates heap reach ctx key) ∧
      MetadataSound ctx reach (calculate heap evictions ctx metadata key).2 ∧
      (calculate heap evictions ctx metadata key).2.boundRuntime = some ctx.runtime := by
  have hbound : metadata.boundRuntime.getD ctx.runtime = ctx.runtime := by
    rcases h.bound with hb | hb <;> rw [hb] <;> rfl
  let asked (node : E) (cache : SuccessorsCache E) :=
    ((SuccessorsCache.query evictions.successors ctx cache node).1.map fun s => (s.1, s.2.2),
      (SuccessorsCache.query evictions.successors ctx cache node).2)
  -- the search asks a cache that stays sound all along
  have hasked : ∀ node (cache : SuccessorsCache E), cache.Sound (SuccessorsCache.calculate ctx) →
      (asked node cache).1 = successors ctx node ∧
        (asked node cache).2.Sound (SuccessorsCache.calculate ctx) := by
    intro node cache hcache
    obtain ⟨hval, hsound⟩ := SuccessorsCache.query_sound evictions.successors hcache node
    exact ⟨by simp only [asked, hval, successors], hsound⟩
  obtain ⟨hitems, hsound⟩ := Dijkstra.items_stateful hasked (within metadata.reach)
    (ctx.map.graph.length + 1) (Dijkstra.reach heap key)
    metadata.successors h.successors
  unfold calculate
  simp only [hbound, ne_eq, not_true_eq_false, if_false]
  refine ⟨?_, ⟨h.reach_eq, Or.inl rfl, hsound⟩, trivial⟩
  rw [predicates, hitems, h.reach_eq]

/-- A calculation for another runtime is refused. -/
theorem calculate_refused {ctx : RoutingContext E P M R} {metadata : PredicateMetadata E R}
    {runtime : R} (hbound : metadata.boundRuntime = some runtime) (hne : runtime ≠ ctx.runtime)
    (key : E) : calculate heap evictions ctx metadata key = (none, metadata) := by
  unfold calculate
  simp only [hbound, Option.getD_some]
  rw [if_pos hne, ← hbound]

/-! ### Histories -/

/-- What may happen to a cache: a query in some context, or evictions. -/
inductive Step (E P R : Type)
  | query (candidates : CandidateStore E P) (runtime : R) (key : E)
  | evict (keepPredicates keepSuccessors : E → Bool)

/-- One step, with the answer to a query; an eviction answers nothing. -/
def step (map : Network E P M R) (cache : PredicateCache E R) :
    Step E P R → Option (Predicates E) × PredicateCache E R
  | .query candidates runtime key => query heap evictions ⟨candidates, map, runtime⟩ cache key
  | .evict keepPredicates keepSuccessors =>
    let metadata :=
      { cache.metadata with successors := cache.metadata.successors.evict keepSuccessors }
    (none, { cache with metadata := metadata }.evict keepPredicates)

/-- The steps of a history, each with its answer; `none` is a query rejected. -/
def run (map : Network E P M R) :
    PredicateCache E R → List (Step E P R) → List (Step E P R × Option (Predicates E))
  | _, [] => []
  | cache, s :: steps =>
    (s, (step heap evictions map cache s).1) :: run map (step heap evictions map cache s).2 steps

/-- A query that finds its key in the cache is for the runtime the cache is bound to. -/
def Step.Guarded (cache : PredicateCache E R) : Step E P R → Prop
  | .query _ runtime key =>
    (cache.entries key).isSome → cache.metadata.boundRuntime = some runtime
  | .evict .. => True

/-- Every query of a history is so when it is made. -/
def Guarded (map : Network E P M R) : PredicateCache E R → List (Step E P R) → Prop
  | _, [] => True
  | cache, s :: steps => s.Guarded cache ∧ Guarded map (step heap evictions map cache s).2 steps

/-- Whatever the cache holds is right for `runtime`. -/
structure SoundFor (map : Network E P M R) (reach : ℕ) (runtime : R)
    (cache : PredicateCache E R) : Prop where
  metadata : MetadataSound (⟨CandidateStore.empty, map, runtime⟩ : RoutingContext E P M R) reach
    cache.metadata
  entries : cache.Sound (predicates heap reach
    (⟨CandidateStore.empty, map, runtime⟩ : RoutingContext E P M R))

/-- A cache bound to a runtime holds what is right for it; one not yet bound is right
for all. -/
def Inv (map : Network E P M R) (reach : ℕ) (cache : PredicateCache E R) : Prop :=
  ∀ runtime, (cache.metadata.boundRuntime = some runtime ∨ cache.metadata.boundRuntime = none) →
    SoundFor heap map reach runtime cache

variable {map : Network E P M R} {reach : ℕ} {cache : PredicateCache E R}

omit [DecidableEq R] in
theorem inv_empty : Inv heap map reach (withReachDistance reach : PredicateCache E R) := by
  intro runtime _
  exact ⟨⟨rfl, Or.inr rfl, ReadThrough.Cache.sound_empty _ _⟩, ReadThrough.Cache.sound_empty _ _⟩

variable {heap}

/-- A query for a runtime the cache is right for is answered so, and leaves it right. -/
theorem SoundFor.query {runtime : R} (h : SoundFor heap map reach runtime cache)
    (candidates : CandidateStore E P) (key : E) :
    (query heap evictions ⟨candidates, map, runtime⟩ cache key).1
        = some (predicates heap reach ⟨candidates, map, runtime⟩ key) ∧
      SoundFor heap map reach runtime
        (PredicateCache.query heap evictions ⟨candidates, map, runtime⟩ cache key).2 := by
  have hcalc := calculate_sound heap evictions (h.metadata.of_candidates candidates) key
  obtain ⟨hval, hsound⟩ := ReadThrough.Cache.Sound.query h.entries evictions.predicates
    (calculate heap evictions ⟨candidates, map, runtime⟩) key
    fun v hv => Option.some.inj (hv.symm.trans hcalc.1)
  have hsome := ReadThrough.Cache.isSome_query evictions.predicates
    (calculate heap evictions ⟨candidates, map, runtime⟩) cache key (by rw [hcalc.1]; rfl)
  obtain ⟨v, hv⟩ := Option.isSome_iff_exists.mp hsome
  refine ⟨hv.trans (congrArg some (hval v hv)), ?_, hsound⟩
  rcases ReadThrough.Cache.metadata_query evictions.predicates
    (calculate heap evictions ⟨candidates, map, runtime⟩) cache key with hkept | hmade
  · rw [PredicateCache.query, hkept]
    exact h.metadata
  · rw [PredicateCache.query, hmade]
    exact hcalc.2.1.of_candidates _

/-- A query that misses binds the cache to its runtime. -/
theorem SoundFor.bound_miss {runtime : R} (h : SoundFor heap map reach runtime cache)
    (candidates : CandidateStore E P) {key : E} (hmiss : cache.entries key = none) :
    (PredicateCache.query heap evictions ⟨candidates, map, runtime⟩ cache key).2.metadata.boundRuntime
      = some runtime := by
  have hcalc := calculate_sound heap evictions (h.metadata.of_candidates candidates) key
  rw [PredicateCache.query, ReadThrough.Cache.metadata_miss _ _ hmiss]
  exact hcalc.2.2

/-- A query for another runtime than the bound one is answered from the entries or
rejected, and changes nothing. -/
theorem query_other {bound runtime : R} (hbound : cache.metadata.boundRuntime = some bound)
    (hne : bound ≠ runtime) (candidates : CandidateStore E P) (key : E) :
    query heap evictions ⟨candidates, map, runtime⟩ cache key = (cache.entries key, cache) := by
  cases hentry : cache.entries key with
  | some value => exact ReadThrough.Cache.query_hit hentry
  | none =>
    have hrefused : calculate heap evictions ⟨candidates, map, runtime⟩ cache.metadata key
        = (none, cache.metadata) := calculate_refused heap evictions hbound hne key
    rw [query, ReadThrough.Cache.query, hentry]
    simp only [hrefused]

theorem SoundFor.evict {runtime : R} (h : SoundFor heap map reach runtime cache)
    (keepPredicates keepSuccessors : E → Bool) :
    SoundFor heap map reach runtime
      (step heap evictions map cache (.evict keepPredicates keepSuccessors)).2 :=
  ⟨⟨h.metadata.reach_eq, h.metadata.bound, h.metadata.successors.evict keepSuccessors⟩,
    ReadThrough.Cache.Sound.evict h.entries keepPredicates⟩

/-- A step keeps the cache right for the runtime it is bound to. -/
theorem Inv.step (h : Inv heap map reach cache) (s : Step E P R) :
    Inv heap map reach (step heap evictions map cache s).2 := by
  intro runtime hruntime
  cases s with
  | evict keepPredicates keepSuccessors =>
    exact (h runtime hruntime).evict evictions keepPredicates keepSuccessors
  | query candidates asked key =>
    simp only [PredicateCache.step] at hruntime ⊢
    cases hentry : cache.entries key with
    | some value =>
      rw [query, ReadThrough.Cache.query_hit hentry] at hruntime ⊢
      exact h runtime hruntime
    | none =>
      cases hbound : cache.metadata.boundRuntime with
      | none =>
        have hasked := h asked (Or.inr hbound)
        -- the miss has bound the cache to the runtime asked for
        rw [hasked.bound_miss evictions candidates hentry] at hruntime
        obtain rfl : asked = runtime := by simpa using hruntime
        exact (hasked.query evictions candidates key).2
      | some bound =>
        by_cases hne : bound = asked
        · subst hne
          have hasked := h bound (Or.inl hbound)
          rw [hasked.bound_miss evictions candidates hentry] at hruntime
          obtain rfl : bound = runtime := by simpa using hruntime
          exact (hasked.query evictions candidates key).2
        · rw [query_other evictions hbound hne] at hruntime ⊢
          exact h runtime hruntime

/-- Under the guard a query is answered for its own runtime, or rejected. -/
theorem Inv.answer (h : Inv heap map reach cache) {candidates : CandidateStore E P} {runtime : R}
    {key : E} (hguard : (Step.query candidates runtime key).Guarded cache)
    {answer : Predicates E}
    (ha : (query heap evictions ⟨candidates, map, runtime⟩ cache key).1 = some answer) :
    answer = predicates heap reach ⟨candidates, map, runtime⟩ key := by
  have hright (hsound : SoundFor heap map reach runtime cache) :
      answer = predicates heap reach ⟨candidates, map, runtime⟩ key :=
    Option.some.inj (ha.symm.trans (hsound.query evictions candidates key).1)
  cases hbound : cache.metadata.boundRuntime with
  | none => exact hright (h runtime (Or.inr hbound))
  | some bound =>
    by_cases hne : bound = runtime
    · subst hne
      exact hright (h bound (Or.inl hbound))
    · rw [query_other evictions hbound hne] at ha
      have hhit := hguard (Option.isSome_iff_exists.mpr ⟨answer, ha⟩)
      rw [hbound] at hhit
      exact absurd (Option.some.inj hhit) hne

/-- Whatever runtime is asked for, an answer is right for the one the cache is bound to. -/
theorem Inv.answer_bound (h : Inv heap map reach cache) {bound : R}
    (hbound : cache.metadata.boundRuntime = some bound) {candidates : CandidateStore E P}
    {runtime : R} {key : E} {answer : Predicates E}
    (ha : (query heap evictions ⟨candidates, map, runtime⟩ cache key).1 = some answer) :
    answer = predicates heap reach ⟨candidates, map, bound⟩ key := by
  have hsound := h bound (Or.inl hbound)
  by_cases hne : bound = runtime
  · subst hne
    exact Option.some.inj (ha.symm.trans (hsound.query evictions candidates key).1)
  · rw [query_other evictions hbound hne] at ha
    exact hsound.entries key answer ha

/-- Every answer of a guarded history is right for its own runtime. -/
theorem run_guarded (steps : List (Step E P R)) : ∀ {cache : PredicateCache E R},
    Inv heap map reach cache → Guarded heap evictions map cache steps →
      ∀ {candidates runtime key answer}, (Step.query candidates runtime key, some answer)
        ∈ run heap evictions map cache steps →
          answer = predicates heap reach ⟨candidates, map, runtime⟩ key := by
  induction steps with
  | nil =>
    intro cache _ _ candidates runtime key answer hmem
    cases hmem
  | cons s steps ih =>
    intro cache hinv hguard candidates runtime key answer hmem
    rcases List.mem_cons.mp hmem with heq | hmem
    · obtain ⟨rfl, ha⟩ := Prod.mk.inj heq
      exact hinv.answer evictions hguard.1 ha.symm
    · exact ih (hinv.step evictions s) hguard.2 hmem

/-- **In a history whose hits are for the runtime the cache is bound to, every answer is
the one a calculation on an empty cache gives for the query's own runtime.** -/
theorem run_own_runtime (steps : List (Step E P R))
    (hguard : Guarded heap evictions map (withReachDistance reach) steps)
    {candidates : CandidateStore E P} {runtime : R} {key : E} {answer : Predicates E}
    (h : (Step.query candidates runtime key, some answer)
      ∈ run heap evictions map (withReachDistance reach) steps) :
    (calculate heap evictions ⟨candidates, map, runtime⟩
      (withReachDistance reach : PredicateCache E R).metadata key).1 = some answer := by
  have hinv : Inv heap map reach (withReachDistance reach : PredicateCache E R) :=
    inv_empty heap
  have hmetadata := (hinv runtime (Or.inr rfl)).metadata.of_candidates candidates
  rw [(calculate_sound heap evictions hmetadata key).1, run_guarded evictions steps hinv hguard h]

end PredicateCache

/-! ### A gated road -/

/-- One road, which only the runtime `true` may use. -/
def gatedRoad : Network ℕ Milestone Unit Bool where
  graph := [⟨0, 1, 1, ⟨7, .outgoing⟩⟩]
  graph_unique := by decide
  point node := some ⟨node * 100⟩
  graph_points := by decide
  metadata _ := some ()
  accessible _ runtime _ := runtime

/-- The heap and the evictions of the examples: labels in a list, nothing evicted. -/
def listHeap : Heap := PriorityQueue.ofList _

/-- No entry is ever evicted. -/
def noEvictions : Evictions ℕ := ⟨fun _ _ => false, fun _ _ => false⟩

namespace PredicateCache

theorem run_own_runtime_gated : (calculate listHeap noEvictions
    ⟨CandidateStore.empty, gatedRoad, true⟩
    (withReachDistance 100000 : PredicateCache ℕ Bool).metadata 0).1 = some ⟨[(0, 0), (1, 0)]⟩ :=
  run_own_runtime noEvictions
    [.query CandidateStore.empty true 0, .evict (fun _ => true) (fun _ => true),
      .query CandidateStore.empty true 0]
    ⟨fun h => (Bool.false_ne_true h).elim, trivial, fun _ => rfl, trivial⟩
    (List.mem_of_getElem? (i := 2) rfl)

/-- The road is closed to `false`, and yet a query for it finds the map built for `true`. -/
theorem run_other_runtime : ¬ ∀ (steps : List (Step ℕ Milestone Bool))
    (candidates : CandidateStore ℕ Milestone) (runtime : Bool) (key : ℕ)
    (answer expected : Predicates ℕ),
    (Step.query candidates runtime key, some answer)
        ∈ run listHeap noEvictions gatedRoad (withReachDistance 100000) steps →
      (calculate listHeap noEvictions ⟨candidates, gatedRoad, runtime⟩
        (withReachDistance 100000 : PredicateCache ℕ Bool).metadata key).1 = some expected →
      answer.get = expected.get := by
  intro h
  have hstale := h [.query CandidateStore.empty true 0, .query CandidateStore.empty false 0]
    CandidateStore.empty false 0 ⟨[(0, 0), (1, 0)]⟩ ⟨[(0, 0)]⟩
    (List.mem_of_getElem? (i := 1) rfl) rfl
  have hroad := congrFun hstale 1
  simp [Predicates.get] at hroad

end PredicateCache

end Routers
