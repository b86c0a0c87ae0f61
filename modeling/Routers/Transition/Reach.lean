import Routers.Transition.Cache

/-!
# How far the cache reaches

The bounded search is ordered by a cost of average road class and distance, and cut off
at the first label whose distance alone is at or past the reach.

## Main definitions

* `Joined`, `Within` — nodes joined to a root by accessible edges, within a distance.
* `settled` — what the search settles when it is not cut off, in its order.

## Main results

* `mem_settled_iff` — the search settles the nodes joined to the root.
* `predicates_spec` — the parents of a map lead back to its root.

## References

`src/libs/routers_transition/src/primitives/cache.rs`.
-/

namespace Routers

variable {E P M R : Type} [DecidableEq E] [Geometry P]

/-! ### Distances along a path -/

/-- The nodes the root is joined to by a path of accessible edges, with the distance
along it: the sum of the whole centimetres the costs of its edges keep. -/
inductive Joined (ctx : RoutingContext E P M R) (root : E) : E → ℕ → Prop
  | nil : Joined ctx root root 0
  | snoc {u e distance} : Joined ctx root u distance → e ∈ ctx.map.edgesOutof u →
      ctx.map.isOpen ctx.runtime e = true →
      Joined ctx root e.target
        (distance + (WeightAndDistance.new e.weight (ctx.map.distanceCm u e.target)).distanceCm)

/-- The nodes joined to the root by a path shorter than `reach`. -/
def Within (ctx : RoutingContext E P M R) (reach : ℕ) (root v : E) : Prop :=
  ∃ distance < reach, Joined ctx root v distance

/-- The search walks the paths, adding their distances up as `u32`s. -/
theorem joined_of_walk {ctx : RoutingContext E P M R} {root v : E} {c : WeightAndDistance}
    (h : Walk (successors ctx) root v c) :
    ∃ distance, Joined ctx root v distance ∧ c.distanceCm = distance % u32Modulus := by
  induction h with
  | nil => exact ⟨0, Joined.nil, rfl⟩
  | snoc _ hm ih =>
    obtain ⟨distance, hjoined, hsum⟩ := ih
    obtain ⟨e, hmem, rfl, rfl, hopen, rfl⟩ := mem_successors.mp hm
    refine ⟨_, hjoined.snoc (ctx.map.mem_edgesOutof.mpr ⟨hmem, rfl⟩) hopen, ?_⟩
    simp only [WeightAndDistance.add, wrappingAdd, hsum]
    rw [Nat.mod_add_mod]

theorem Joined.exists_walk {ctx : RoutingContext E P M R} {root v : E} {distance : ℕ}
    (h : Joined ctx root v distance) : ∃ c, Walk (successors ctx) root v c := by
  induction h with
  | nil => exact ⟨_, Walk.nil⟩
  | snoc _ hmem hopen ih =>
    obtain ⟨c, hwalk⟩ := ih
    obtain ⟨hgraph, hsource⟩ := ctx.map.mem_edgesOutof.mp hmem
    exact ⟨_, hwalk.snoc (mem_successors.mpr ⟨_, hgraph, hsource, rfl, hopen, rfl⟩)⟩

/-! ### The search, not cut off -/

/-- What the search rooted at a node settles when it is not cut off, in its order. -/
def settled (heap : Heap) (ctx : RoutingContext E P M R) (root : E) :
    List (DijkstraReachableItem E) :=
  (Dijkstra.items (DijkstraReachable.stateless (successors ctx)) (fun _ => true)
    (ctx.map.graph.length + 1) (Dijkstra.reach heap root) ()).1

section Settled

variable (heap : Heap) (ctx : RoutingContext E P M R) (root : E)

theorem run_settled : ∃ s, DijkstraReachable.Run (successors ctx) (Dijkstra.reach heap root)
    (settled heap ctx root) s := by
  obtain ⟨s, hrun, -⟩ := Dijkstra.exists_run (successors ctx) (ctx.map.graph.length + 1)
    (Dijkstra.reach heap root)
  exact ⟨s, hrun⟩

/-- **The search settles the nodes joined to the root.** -/
theorem mem_settled_iff (v : E) :
    (∃ item ∈ settled heap ctx root, item.node = v) ↔ ∃ distance, Joined ctx root v distance := by
  have htargets : ∀ u, ∀ w ∈ successors ctx u, w.1 ∈ ctx.map.graph.map Edge.target := by
    intro u w hw
    obtain ⟨e, hmem, -, htarget, -⟩ := mem_successors.mp (show (w.1, w.2) ∈ successors ctx u from hw)
    exact List.mem_map.mpr ⟨e, hmem, htarget⟩
  have hiff := Dijkstra.mem_items_iff htargets heap root v
  rw [List.length_map] at hiff
  rw [settled, hiff]
  constructor
  · rintro ⟨c, hwalk⟩
    obtain ⟨distance, hjoined, -⟩ := joined_of_walk hwalk
    exact ⟨distance, hjoined⟩
  · rintro ⟨distance, hjoined⟩
    exact hjoined.exists_walk

/-- Each node is settled once. -/
theorem nodup_settled : ((settled heap ctx root).map (·.node)).Nodup := by
  obtain ⟨s, hrun⟩ := run_settled heap ctx root
  exact (hrun.item (DijkstraReachable.inv_reach _ root)).2.1

/-- A settled node is the root, or was reached by an edge from a node settled before. -/
theorem parent_of_settled {before after : List (DijkstraReachableItem E)}
    {item : DijkstraReachableItem E} (h : settled heap ctx root = before ++ item :: after) :
    item.node = root ∨ ∃ earlier ∈ before, item.parent = some earlier.node ∧
      ∃ e ∈ ctx.map.graph, e.source = earlier.node ∧ e.target = item.node := by
  obtain ⟨s, hrun⟩ := run_settled heap ctx root
  obtain ⟨-, -, -, horphan, hparent⟩ := hrun.item (DijkstraReachable.inv_reach _ root)
  cases hp : item.parent with
  | none => exact Or.inl (horphan item (h ▸ by simp) hp)
  | some u =>
    obtain ⟨hsettled, m, hm⟩ := hparent before item after h u hp
    obtain ⟨e, hmem, hsource, htarget, -⟩ := mem_successors.mp hm
    rcases hsettled with hstart | ⟨earlier, hearlier, rfl⟩
    · exact absurd hstart (DijkstraReachable.not_settled_reach root u)
    · exact Or.inr ⟨earlier, hearlier, rfl, e, hmem, hsource, htarget⟩

end Settled

namespace PredicateCache

variable [Inhabited E]

/-- The map is what was settled before the cut. -/
theorem predicates_eq (heap : Heap) (reach : ℕ) (ctx : RoutingContext E P M R) (root : E) :
    predicates heap reach ctx root
      = collect ((settled heap ctx root).takeWhile fun item => within reach item.totalCost) := by
  rw [predicates, settled, Dijkstra.items_takeWhile]

theorem isSome_get_collect {items : List (DijkstraReachableItem E)} {v : E} :
    ((collect items).get v).isSome ↔ ∃ item ∈ items, item.node = v := by
  simp [collect, Predicates.get, List.find?_isSome]

/-- **The parents of a map lead back to its root**: every entry is the root's, or names
the node of an earlier entry and one edge from there. -/
theorem predicates_spec (heap : Heap) (reach : ℕ) (ctx : RoutingContext E P M R) (root : E) :
    ((predicates heap reach ctx root).entries.map Prod.fst).Nodup ∧
      ∀ before v p after, (predicates heap reach ctx root).entries = before ++ (v, p) :: after →
        v = root ∨ p ∈ before.map Prod.fst ∧
          ∃ e ∈ ctx.map.graph, e.source = p ∧ e.target = v := by
  rw [predicates_eq]
  set items := (settled heap ctx root).takeWhile fun item => within reach item.totalCost with hitems
  have hpre : items <+: settled heap ctx root := List.takeWhile_prefix _
  constructor
  · have hnodes : (collect items).entries.map Prod.fst = items.map (·.node) := by
      simp [collect]
    rw [hnodes]
    exact (nodup_settled heap ctx root).sublist (hpre.sublist.map _)
  · intro before v p after h
    obtain ⟨early, late, hsplit, hbefore, hlate⟩ := List.map_eq_append_iff.mp h
    obtain ⟨item, rest, rfl, hitem, -⟩ := List.map_eq_cons_iff.mp hlate
    obtain ⟨rfl, rfl⟩ := Prod.mk.inj hitem
    obtain ⟨cut, hcut⟩ := hpre
    rw [hsplit, List.append_assoc, List.cons_append] at hcut
    rcases parent_of_settled heap ctx root hcut.symm with hroot | ⟨earlier, hearlier, hp, he⟩
    · exact Or.inl hroot
    · right
      rw [hp, ← hbefore]
      refine ⟨?_, he⟩
      rw [List.map_map]
      exact List.mem_map_of_mem hearlier

end PredicateCache

end Routers
