import Routers.Library.CutOff
import Routers.Transition.Reach
import Routers.Transition.Shortest

/-!
# What is within reach

The bounded search goes by the square of an average road class times the distance, and stops
at the first label whose distance is at or past the reach.  The keys of its map are the nodes
within the reach where road classes do not get in the way of distances: no detour on better
roads costs less than a nearest path, and no way past the reach less than one within it.

## Main definitions

* `RoutingContext.graph` — the accessible edges, as what a search runs on.
* `DistancesAgree` — costs agree with distances, up to the reach.

## Main results

* `joined_iff_way` — the paths of accessible edges are those of the graph.
* `PredicateCache.keys_within` — **where costs agree with distances, the keys of a map are the
  nodes within the reach.**
* `PredicateCache.keys_misses_within` — a map that misses one, of a motorway and its link.

## References

`src/libs/routers_transition/src/primitives/cache.rs` and
`src/libs/routers_transition/src/primitives/weight_and_distance.rs`.
-/

namespace Routers

variable {E P M R : Type} [DecidableEq E] [Geometry P]

/-- The accessible edges of a network, as a graph to search. -/
def RoutingContext.graph (ctx : RoutingContext E P M R) : FiniteGraph E where
  successors := Routers.successors ctx
  nodes := ctx.map.graph.map Edge.target
  mem_nodes u w hw := by
    obtain ⟨e, hmem, -, htarget, -⟩ :=
      mem_successors.mp (show (w.1, w.2) ∈ Routers.successors ctx u from hw)
    exact List.mem_map.mpr ⟨e, hmem, htarget⟩

/-- Up to the reach, the costs of simple paths of accessible edges agree with their
distances: none overflows, and a move past the reach, or one that is a detour, leads to a
greater cost than the nearest paths have that it competes with. -/
def DistancesAgree (ctx : RoutingContext E P M R) (reach : ℕ) (root : E) : Prop :=
  ctx.graph.costs.Agrees WeightAndDistance.distanceCm reach root

section Graph

variable {ctx : RoutingContext E P M R} {root : E}

theorem move_iff {u v : E} {m : WeightAndDistance} :
    ctx.graph.costs.Move u v m ↔ ∃ e ∈ ctx.map.edgesOutof u, e.target = v ∧
      ctx.map.isOpen ctx.runtime e = true ∧
      m = WeightAndDistance.new e.weight (ctx.map.distanceCm u v) := by
  simp only [FiniteGraph.costs, RoutingContext.graph, mem_successors, Network.mem_edgesOutof,
    and_assoc]

/-- The paths of accessible edges are those of the graph. -/
theorem joined_iff_way {v : E} {distance : ℕ} : Joined ctx root v distance ↔
    ctx.graph.costs.Way WeightAndDistance.distanceCm root v distance := by
  constructor
  · intro h
    induction h with
    | nil => exact .nil
    | snoc _ hmem hopen ih => exact ih.snoc (move_iff.mpr ⟨_, hmem, rfl, hopen, rfl⟩)
  · intro h
    induction h with
    | nil => exact .nil
    | snoc _ hm ih =>
      obtain ⟨e, hmem, rfl, hopen, rfl⟩ := move_iff.mp hm
      exact ih.snoc hmem hopen

theorem within_iff_inReach {reach : ℕ} {v : E} : Within ctx reach root v ↔
    ctx.graph.costs.InReach WeightAndDistance.distanceCm reach root v := by
  simp only [Within, CostGraph.InReach, joined_iff_way]

theorem reachAll_graph (heap : Heap) : ctx.graph.reachAll heap root = settled heap ctx root := by
  rw [FiniteGraph.reachAll, settled, RoutingContext.graph, List.length_map]

end Graph

namespace PredicateCache

variable [Inhabited E] [DecidableEq R]

/-- **Where costs agree with distances up to the reach, the keys of the map are the nodes
within the reach.** -/
theorem keys_within (heap : Heap) (evictions : Evictions E) {reach : ℕ}
    {ctx : RoutingContext E P M R} {root : E} (h : DistancesAgree ctx reach root) :
    ∃ answer, (calculate heap evictions ctx
        (withReachDistance reach : PredicateCache E R).metadata root).1 = some answer ∧
      ∀ v, (answer.get v).isSome ↔ Within ctx reach root v := by
  have hmetadata : MetadataSound ctx reach (withReachDistance reach : PredicateCache E R).metadata :=
    ⟨rfl, Or.inr rfl, ReadThrough.Cache.sound_empty _ _⟩
  refine ⟨_, (calculate_sound heap evictions hmetadata root).1, fun v => ?_⟩
  have henum := ctx.graph.enumerates_reachAll heap root
  have hiff := henum.mem_takeWhile_iff h rfl v
  rw [reachAll_graph, ← within_iff_inReach] at hiff
  rw [← hiff, predicates_eq, isSome_get_collect, FiniteGraph.labels, List.takeWhile_map,
    List.map_map, List.mem_map]
  rfl

end PredicateCache

/-! ### A motorway and its link -/

/-- From node `0` a motorway runs 1200 m one way, and a link of class `2` the other. -/
def motorwayLink (metres : ℤ) : Network ℕ Milestone Unit Unit where
  graph := [⟨0, 1, 1, ⟨7, .outgoing⟩⟩, ⟨0, 2, 2, ⟨8, .outgoing⟩⟩]
  graph_unique := by decide
  point node := some (if node = 0 then ⟨0⟩ else if node = 1 then ⟨1200⟩ else ⟨-metres⟩)
  graph_points _ _ := ⟨rfl, rfl⟩
  metadata _ := some ()
  accessible _ _ _ := true

/-- A link of 100 m costs less than the motorway. -/
theorem distancesAgree_motorwayLink :
    DistancesAgree ⟨CandidateStore.empty, motorwayLink 100, ()⟩ 100000 0 := by
  set g := (⟨CandidateStore.empty, motorwayLink 100, ()⟩ :
    RoutingContext ℕ Milestone Unit Unit).graph with hg
  have hmove : ∀ {u v m}, g.costs.Move u v m →
      u = 0 ∧ (v = 1 ∧ m = ⟨1, 1, 120000⟩ ∨ v = 2 ∧ m = ⟨2, 1, 10000⟩) := by
    intro u v m hm
    obtain ⟨e, hmem, rfl, -, rfl⟩ := move_iff.mp hm
    obtain ⟨hgraph, rfl⟩ := (Network.mem_edgesOutof _).mp hmem
    rcases List.mem_pair.mp hgraph with rfl | rfl
    · exact ⟨rfl, Or.inl ⟨rfl, rfl⟩⟩
    · exact ⟨rfl, Or.inr ⟨rfl, rfl⟩⟩
  -- the paths within reach are the empty one, and the link
  have hnear : ∀ {v visited n c}, g.costs.Near WeightAndDistance.distanceCm 100000 0 v visited n c →
      v = 0 ∧ visited = [0] ∧ n = 0 ∧ c = ⟨0, 0, 0⟩ ∨ v = 2 ∧ n = 10000 ∧ c = ⟨2, 1, 10000⟩ := by
    rintro v visited n c ⟨htrail, -, hlt⟩
    cases htrail with
    | nil => exact Or.inl ⟨rfl, rfl, rfl, rfl⟩
    | snoc htrail hm hnew =>
      obtain ⟨rfl, ⟨rfl, rfl⟩ | ⟨rfl, rfl⟩⟩ := hmove hm
      · dsimp only at hlt
        omega
      · cases htrail with
        | nil => exact Or.inr ⟨rfl, Nat.zero_add _, by decide⟩
        | snoc _ hm' => exact absurd (hmove hm').2 (by omega)
  constructor
  · intro u v visited n c m hu hm _
    obtain ⟨rfl, hvm⟩ := hmove hm
    obtain ⟨-, -, rfl, rfl⟩ | ⟨hu, -⟩ := hnear hu
    · rcases hvm with ⟨-, rfl⟩ | ⟨-, rfl⟩ <;> decide
    · omega
  · intro w _ n' c' u v visited n c m hw hu hm _ hv
    obtain ⟨rfl, ⟨rfl, rfl⟩ | ⟨rfl, rfl⟩⟩ := hmove hm
    · obtain ⟨-, -, rfl, rfl⟩ | ⟨hu, -⟩ := hnear hu
      · obtain ⟨-, -, -, rfl⟩ | ⟨-, -, rfl⟩ := hnear hw <;> decide
      · omega
    · exact absurd ⟨_, by decide, CostGraph.Way.nil.snoc hm⟩ hv
  · intro w _ n' c' u v visited n c m k hw hu hm _ _ hnearest hlt hdetour
    -- no way to an end of the two roads is a detour
    exfalso
    obtain ⟨rfl, hvm⟩ := hmove hm
    generalize n' + k = distance at hnearest hlt hdetour
    cases hnearest.way with
    | nil => omega
    | snoc _ hm' =>
      obtain ⟨-, hvm'⟩ := hmove hm'
      obtain ⟨-, -, rfl, rfl⟩ | ⟨hu, -⟩ := hnear hu
      · rcases hvm with ⟨rfl, rfl⟩ | ⟨rfl, rfl⟩ <;>
          rcases hvm' with ⟨hv, rfl⟩ | ⟨hv, rfl⟩ <;> simp at hv hdetour hlt
      · omega

namespace PredicateCache

theorem keys_within_motorwayLink : ∃ answer,
    (calculate listHeap noEvictions ⟨CandidateStore.empty, motorwayLink 100, ()⟩
        (withReachDistance 100000 : PredicateCache ℕ Unit).metadata 0).1 = some answer ∧
      ∀ v, (answer.get v).isSome ↔ Within ⟨CandidateStore.empty, motorwayLink 100, ()⟩ 100000 0 v :=
  keys_within listHeap noEvictions distancesAgree_motorwayLink

/-- The end of the motorway, past a reach of 1 km, comes before the end of a link of 400 m. -/
theorem keys_misses_within :
    (calculate listHeap noEvictions ⟨CandidateStore.empty, motorwayLink 400, ()⟩
        (withReachDistance 100000 : PredicateCache ℕ Unit).metadata 0).1 = some ⟨[(0, 0)]⟩ ∧
      (⟨[(0, 0)]⟩ : Predicates ℕ).get 2 = none ∧
      Within ⟨CandidateStore.empty, motorwayLink 400, ()⟩ 100000 0 2 := by
  have hlink : (⟨0, 2, 2, ⟨8, .outgoing⟩⟩ : Edge ℕ) ∈ (motorwayLink 400).edgesOutof 0 := by decide
  have hroot : Joined (⟨CandidateStore.empty, motorwayLink 400, ()⟩ :
      RoutingContext ℕ Milestone Unit Unit) 0 0 0 := Joined.nil
  exact ⟨by decide, by decide, 40000, by decide, hroot.snoc hlink rfl⟩

end PredicateCache

/-! ### A detour that does no harm -/

/-- From node `0` a road of class `2` runs 100 m to node `1`, and better roads run there by
node `2`, 10 m behind. -/
def shortcut : Network ℕ Milestone Unit Unit where
  graph := [⟨0, 1, 2, ⟨7, .outgoing⟩⟩, ⟨0, 2, 1, ⟨8, .outgoing⟩⟩, ⟨2, 1, 1, ⟨9, .outgoing⟩⟩]
  graph_unique := by decide
  point node := some (if node = 0 then ⟨0⟩ else if node = 1 then ⟨100⟩ else ⟨-10⟩)
  graph_points _ _ := ⟨rfl, rfl⟩
  metadata _ := some ()
  accessible _ _ _ := true

/-- A detour that costs less than the nearest path is taken, and within reach all the same. -/
theorem shortcut_predicates :
    ¬ DistancesAgree ⟨CandidateStore.empty, shortcut, ()⟩ 100000 0 ∧
      (PredicateCache.predicates listHeap 100000 ⟨CandidateStore.empty, shortcut, ()⟩ 0).entries
        = [(0, 0), (2, 0), (1, 2)] := by
  refine ⟨fun h => ?_, by decide⟩
  set g := (⟨CandidateStore.empty, shortcut, ()⟩ : RoutingContext ℕ Milestone Unit Unit).graph
  have hroad : g.costs.Move 0 1 ⟨2, 1, 10000⟩ :=
    move_iff.mpr ⟨⟨0, 1, 2, ⟨7, .outgoing⟩⟩, by decide, rfl, rfl, by decide⟩
  have hback : g.costs.Move 0 2 ⟨1, 1, 1000⟩ :=
    move_iff.mpr ⟨⟨0, 2, 1, ⟨8, .outgoing⟩⟩, by decide, rfl, rfl, by decide⟩
  have hround : g.costs.Move 2 1 ⟨1, 1, 11000⟩ :=
    move_iff.mpr ⟨⟨2, 1, 1, ⟨9, .outgoing⟩⟩, by decide, rfl, rfl, by decide⟩
  have hleast : ∀ {v n}, g.costs.Way WeightAndDistance.distanceCm 0 v n →
      v = 0 ∨ v = 1 ∧ 10000 ≤ n ∨ v = 2 ∧ 1000 ≤ n := by
    intro v n hway
    cases hway with
    | nil => exact Or.inl rfl
    | snoc _ hm =>
      obtain ⟨e, hmem, rfl, -, rfl⟩ := move_iff.mp hm
      obtain ⟨hgraph, rfl⟩ := (Network.mem_edgesOutof _).mp hmem
      simp only [shortcut, List.mem_cons, List.not_mem_nil, or_false] at hgraph
      rcases hgraph with rfl | rfl | rfl
      · exact Or.inr (Or.inl ⟨rfl, Nat.le_add_left _ _⟩)
      · exact Or.inr (Or.inr ⟨rfl, Nat.le_add_left _ _⟩)
      · exact Or.inr (Or.inl ⟨rfl, Nat.le_add_left_of_le (by decide)⟩)
  have hone : g.costs.Nearest WeightAndDistance.distanceCm 0 1 10000 :=
    ⟨CostGraph.Way.nil.snoc hroad, fun n hway => by have := hleast hway; omega⟩
  have htwo : g.costs.Nearest WeightAndDistance.distanceCm 0 2 1000 :=
    ⟨CostGraph.Way.nil.snoc hback, fun n hway => by have := hleast hway; omega⟩
  have hlt := h.detour ⟨CostGraph.Trail.nil.snoc hroad (by decide), hone, by decide⟩
    ⟨CostGraph.Trail.nil.snoc hback (by decide), htwo, by decide⟩ hround (by decide)
    CostGraph.Way.nil hone (by decide) (by decide)
  exact absurd hlt (by decide)

end Routers
