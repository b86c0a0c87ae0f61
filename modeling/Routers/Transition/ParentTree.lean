import Routers.Transition.Expansion

/-!
# The tree of a reachability map

The parents of a map lead from each of its nodes to the root, over edges the runtime may use, and
no node is met twice on the way.  The walk along them has no bound of its own; it ends all the
same, at the root or at a leaf the map does not hold.

## Main definitions

* `Predicates.ancestor` — where some steps along the parents lead.
* `Predicates.PathLoop` — the unbounded loop that walks them.
* `RootedTree` — the parents lead to the root, the walk ends, and its route misses no edge.
* `PredicateCache.history` — a cache that has been used.

## Main results

* `Predicates.Rooted.exists_ancestor` — **each node is fewer steps from the root than there are
  entries.**
* `Predicates.Rooted.pathLoop` — **the loop ends**, with what the bounded walk gives.
* `PredicateCache.rootedTree_history` — **the maps of a used cache are rooted trees.**

## References

`src/libs/routers_transition/src/primitives/cache.rs` and
`src/libs/routers_transition/src/weigh/expansion.rs`.
-/

namespace Routers

variable {E P M R : Type} [DecidableEq E]

namespace Predicates

/-- Where some steps along the parents lead. -/
def ancestor (parents : Predicates E) : ℕ → E → Option E
  | 0, v => some v
  | n + 1, v => (parents.get v).bind (ancestor parents n)

theorem ancestor_succ {parents : Predicates E} {v p : E} (h : parents.get v = some p) (n : ℕ) :
    parents.ancestor (n + 1) v = parents.ancestor n p := by
  rw [ancestor, h, Option.bind_some]

/-- The loop of the walk, from the nodes found so far and the cursor to what is returned. -/
inductive PathLoop (parents : Predicates E) (root : E) : List E → E → Option (List E) → Prop
  | done {nodes cursor} : cursor = root → PathLoop parents root nodes cursor (some nodes.reverse)
  | missing {nodes cursor} : cursor ≠ root → parents.get cursor = none →
      PathLoop parents root nodes cursor none
  | step {nodes cursor parent result} : cursor ≠ root → parents.get cursor = some parent →
      PathLoop parents root (nodes ++ [parent]) parent result →
      PathLoop parents root nodes cursor result

variable {map : Network E P M R} {root : E} {parents : Predicates E}

/-- **Each node is fewer steps from the root than there are entries before it**, and no step is
taken from the root. -/
theorem Rooted.exists_ancestor (h : parents.Rooted map root) : ∀ (n : ℕ)
    {before after : List (E × E)} {v p : E}, parents.entries = before ++ (v, p) :: after →
      before.length = n → ∃ k ≤ n, parents.ancestor k v = some root ∧
        ∀ i < k, ∃ child parent, parents.ancestor i v = some child ∧ child ≠ root ∧
          parents.get child = some parent := by
  intro n
  induction n using Nat.strong_induction_on with
  | _ n ih =>
    intro before after v p hsplit hlen
    by_cases hroot : v = root
    · exact ⟨0, Nat.zero_le n, congrArg some hroot, fun i hi => absurd hi (Nat.not_lt_zero i)⟩
    · -- the parent's entry comes earlier
      obtain ⟨-, first, q, rest, hearlier, hshort⟩ := h.earlier hsplit hroot
      rw [hlen] at hshort
      obtain ⟨k, hk, hancestor, hsteps⟩ := ih first.length hshort hearlier rfl
      have hget : parents.get v = some p := h.get_eq_some (hsplit ▸ by simp)
      refine ⟨k + 1, by omega, by rw [ancestor_succ hget, hancestor], fun i hi => ?_⟩
      cases i with
      | zero => exact ⟨v, p, rfl, hroot, hget⟩
      | succ i =>
        rw [ancestor_succ hget]
        exact hsteps i (by omega)

/-- The loop goes as the bounded walk does. -/
theorem pathLoop_of_walkBack : ∀ (fuel : ℕ) {cursor : E} {back : List E},
    parents.walkBack root fuel cursor = some back → ∀ found,
      PathLoop parents root (found ++ [cursor]) cursor (some (found ++ back).reverse) := by
  intro fuel
  induction fuel with
  | zero =>
    intro cursor back h found
    rw [walkBack] at h
    by_cases hroot : cursor = root
    · rw [if_pos hroot] at h
      cases h
      exact .done hroot
    · rw [if_neg hroot] at h
      cases h
  | succ fuel ih =>
    intro cursor back h found
    rw [walkBack] at h
    by_cases hroot : cursor = root
    · rw [if_pos hroot] at h
      cases h
      exact .done hroot
    · rw [if_neg hroot] at h
      cases hget : parents.get cursor with
      | none =>
        rw [hget] at h
        cases h
      | some parent =>
        rw [hget] at h
        obtain ⟨rest, hrest, rfl⟩ := Option.map_eq_some_iff.mp h
        have hfound : found ++ cursor :: rest = found ++ [cursor] ++ rest := by simp
        rw [hfound]
        exact .step hroot hget (ih hrest (found ++ [cursor]))

/-- **The loop ends**, with what the bounded walk gives. -/
theorem Rooted.pathLoop (h : parents.Rooted map root) (leaf : E) :
    PathLoop parents root [leaf] leaf (parents.path root leaf) := by
  by_cases hleaf : leaf = root ∨ (parents.get leaf).isSome
  · obtain ⟨nodes, hpath, -⟩ := h.path hleaf
    obtain ⟨back, hback, rfl⟩ := Option.map_eq_some_iff.mp hpath
    rw [hpath]
    exact pathLoop_of_walkBack _ hback []
  · -- A leaf that is not in the map is where the loop stops.
    obtain ⟨hroot, hget⟩ := not_or.mp hleaf
    rw [Option.not_isSome_iff_eq_none] at hget
    cases hpath : parents.path root leaf with
    | none => exact .missing hroot hget
    | some nodes => exact absurd (key_of_path hpath) hleaf

end Predicates

/-! ### Rooted trees -/

/-- An edge that the runtime may use leads from `parent` to `child`. -/
def Accessible (ctx : RoutingContext E P M R) (parent child : E) : Prop :=
  ∃ e ∈ ctx.map.graph, e.source = parent ∧ e.target = child ∧ ctx.map.isOpen ctx.runtime e = true

namespace Expansion

/-- The edges along the walk from a root to a leaf. -/
def routeAlong (ctx : RoutingContext E P M R) (parents : Predicates E) (root leaf : E) :
    Option (List (Edge E)) :=
  (parents.path root leaf).map (edgesAlong ctx)

/-- A route is that along the map of its own search. -/
theorem route_eq [Inhabited E] [Geometry P] (heap : Heap) (reach : ℕ) (ctx : RoutingContext E P M R)
    (source target : Candidate E P) : route heap reach ctx source target
      = routeAlong ctx (PredicateCache.predicates heap reach ctx source.edge.target)
        source.edge.target target.edge.source := rfl

/-- Between linked nodes no edge is filtered out. -/
theorem map_some_edgesAlong {ctx : RoutingContext E P M R} {nodes : List E}
    (h : nodes.IsChain fun a b => Predicates.Linked ctx.map b a) :
    (edgesAlong ctx nodes).map some
      = (nodes.zip nodes.tail).map fun pair => ctx.edge pair.1 pair.2 := by
  induction nodes with
  | nil => rfl
  | cons u nodes ih =>
    cases nodes with
    | nil => rfl
    | cons v nodes =>
      obtain ⟨⟨e, hmem, hsource, htarget⟩, hrest⟩ := List.isChain_cons_cons.mp h
      have hedge : ctx.edge u v = some e :=
        ctx.map.edge_eq_some_iff.mpr ⟨hmem, hsource, htarget⟩
      rw [edgesAlong_cons hedge, List.map_cons, ih hrest]
      simp [hedge]

end Expansion

/-- The parents of a map lead to its root, over accessible edges; the walk from any leaf ends; and a
route is the chain of edges along the walk, with none filtered out. -/
structure RootedTree (ctx : RoutingContext E P M R) (root : E) (parents : Predicates E) : Prop where
  climbs : ∀ v, (parents.get v).isSome → ∃ n ≤ parents.entries.length,
    parents.ancestor n v = some root ∧ ∀ i < n, ∃ child parent,
      parents.ancestor i v = some child ∧ parents.get child = some parent ∧
        Accessible ctx parent child
  terminates : ∀ leaf, Predicates.PathLoop parents root [leaf] leaf (parents.path root leaf)
  route : ∀ leaf edges, Expansion.routeAlong ctx parents root leaf = some edges →
    ∃ nodes, parents.path root leaf = some nodes ∧
      nodes.head? = some root ∧ nodes.getLast? = some leaf ∧
      edges.map some = (nodes.zip nodes.tail).map (fun pair => ctx.edge pair.1 pair.2) ∧
      Contiguous ctx.map root edges leaf

/-- Entries over accessible edges make a rooted map a rooted tree. -/
theorem Predicates.Rooted.rootedTree {ctx : RoutingContext E P M R} {root : E}
    {parents : Predicates E} (h : parents.Rooted ctx.map root)
    (haccessible : ∀ v p, (v, p) ∈ parents.entries → v = root ∨ Accessible ctx p v) :
    RootedTree ctx root parents := by
  refine ⟨fun v hv => ?_, h.pathLoop, fun leaf edges hroute => ?_⟩
  · rw [Predicates.isSome_get_iff] at hv
    obtain ⟨⟨v, p⟩, hmem, rfl⟩ := List.mem_map.mp hv
    obtain ⟨before, after, hsplit⟩ := List.append_of_mem hmem
    obtain ⟨k, hk, hancestor, hsteps⟩ := h.exists_ancestor before.length hsplit rfl
    have hlength : before.length ≤ parents.entries.length := by
      rw [hsplit]
      simp
    refine ⟨k, hk.trans hlength, hancestor, fun i hi => ?_⟩
    obtain ⟨child, parent, hchild, hroot, hget⟩ := hsteps i hi
    exact ⟨child, parent, hchild, hget,
      (haccessible child parent (Predicates.get_eq_some hget)).resolve_left hroot⟩
  · obtain ⟨nodes, hpath, rfl⟩ := Option.map_eq_some_iff.mp hroute
    obtain ⟨nodes', hpath', hhead, hlast, hchain⟩ := h.path (Predicates.key_of_path hpath)
    rw [hpath, Option.some_inj] at hpath'
    subst hpath'
    exact ⟨nodes, hpath, hhead, hlast, Expansion.map_some_edgesAlong hchain,
      Expansion.contiguous_edgesAlong hhead hlast hchain⟩

/-! ### The maps of a cache -/

section Maps

variable [Geometry P]

/-- A settled node was reached by an edge that the runtime may use. -/
theorem accessible_of_settled {heap : Heap} {ctx : RoutingContext E P M R} {root u : E}
    {item : DijkstraReachableItem E} (h : item ∈ settled heap ctx root) (hp : item.parent = some u) :
    Accessible ctx u item.node := by
  obtain ⟨s, hrun⟩ := run_settled heap ctx root
  obtain ⟨before, after, hsplit⟩ := List.append_of_mem h
  obtain ⟨-, -, -, -, hparent⟩ := hrun.item (DijkstraReachable.inv_reach _ root)
  obtain ⟨-, cost, hcost⟩ := hparent before item after hsplit u hp
  obtain ⟨e, hmem, hsource, htarget, hopen, -⟩ := mem_successors.mp hcost
  exact ⟨e, hmem, hsource, htarget, hopen⟩

namespace PredicateCache

variable [Inhabited E]

/-- **The map of a search is a rooted tree.** -/
theorem rootedTree_predicates (heap : Heap) (reach : ℕ) (ctx : RoutingContext E P M R) (root : E) :
    RootedTree ctx root (predicates heap reach ctx root) := by
  refine (Expansion.rooted_predicates heap reach ctx root).rootedTree fun v p hmem => ?_
  rw [predicates_eq] at hmem
  obtain ⟨item, hitem, heq⟩ := List.mem_map.mp hmem
  obtain ⟨rfl, rfl⟩ := Prod.mk.inj heq
  have hsettled := (List.takeWhile_prefix _).subset hitem
  cases hp : item.parent with
  | none =>
    obtain ⟨s, hrun⟩ := run_settled heap ctx root
    obtain ⟨-, -, -, horphan, -⟩ := hrun.item (DijkstraReachable.inv_reach _ root)
    exact Or.inl (horphan item hsettled hp)
  | some u => exact Or.inr (accessible_of_settled hsettled hp)

variable [DecidableEq R] (heap : Heap) (evictions : Evictions E)

/-- A cache that has been used: queries in some contexts, and evictions. -/
def history (map : Network E P M R) (cache : PredicateCache E R) (steps : List (Step E P R)) :
    PredicateCache E R :=
  steps.foldl (fun cache s => (step heap evictions map cache s).2) cache

theorem inv_history {map : Network E P M R} {reach : ℕ} (steps : List (Step E P R)) :
    ∀ {cache : PredicateCache E R}, Inv heap map reach cache →
      Inv heap map reach (history heap evictions map cache steps) := by
  induction steps with
  | nil => exact fun h => h
  | cons s steps ih => exact fun h => ih (h.step evictions s)

/-- What a calculation on a used cache returns is the map of the search. -/
theorem calculate_history {map : Network E P M R} {reach : ℕ} {cache : PredicateCache E R}
    (h : Inv heap map reach cache) {candidates : CandidateStore E P} {runtime : R} {root : E}
    {parents : Predicates E}
    (hcalculate : (calculate heap evictions ⟨candidates, map, runtime⟩ cache.metadata root).1
      = some parents) :
    parents = predicates heap reach ⟨candidates, map, runtime⟩ root := by
  have hright (hbound : cache.metadata.boundRuntime = some runtime
      ∨ cache.metadata.boundRuntime = none) :
      parents = predicates heap reach ⟨candidates, map, runtime⟩ root := by
    have hmetadata := (h runtime hbound).metadata.of_candidates candidates
    rw [(calculate_sound heap evictions hmetadata root).1] at hcalculate
    exact (Option.some.inj hcalculate).symm
  cases hbound : cache.metadata.boundRuntime with
  | none => exact hright (Or.inr hbound)
  | some bound =>
    by_cases hne : bound = runtime
    · exact hright (Or.inl (hne ▸ hbound))
    · -- A runtime the cache is not bound to is refused.
      rw [calculate_refused heap evictions hbound hne] at hcalculate
      cases hcalculate

/-- **The maps of a used cache are rooted trees**: those it calculates for the runtime they are
calculated for, and those it answers with for the runtime that it is bound to. -/
theorem rootedTree_history (map : Network E P M R) (reach : ℕ) (steps : List (Step E P R))
    (candidates : CandidateStore E P) (runtime : R) (root : E) (parents : Predicates E) :
    ((calculate heap evictions ⟨candidates, map, runtime⟩
          (history heap evictions map (withReachDistance reach) steps).metadata root).1 = some parents →
        RootedTree ⟨candidates, map, runtime⟩ root parents) ∧
      ((query heap evictions ⟨candidates, map, runtime⟩
          (history heap evictions map (withReachDistance reach) steps) root).1 = some parents →
        ∃ bound, RootedTree ⟨candidates, map, bound⟩ root parents) := by
  have hinv : Inv heap map reach (history heap evictions map (withReachDistance reach) steps) :=
    inv_history heap evictions steps (inv_empty heap)
  generalize history heap evictions map (withReachDistance reach) steps = cache at hinv ⊢
  refine ⟨fun hcalculate => ?_, fun hquery => ?_⟩
  · rw [calculate_history heap evictions hinv hcalculate]
    exact rootedTree_predicates heap reach _ root
  · cases hbound : cache.metadata.boundRuntime with
    | none =>
      have hanswer := ((hinv runtime (Or.inr hbound)).query evictions candidates root).1
      rw [hquery, Option.some_inj] at hanswer
      rw [hanswer]
      exact ⟨runtime, rootedTree_predicates heap reach _ root⟩
    | some bound =>
      rw [hinv.answer_bound evictions hbound hquery]
      exact ⟨bound, rootedTree_predicates heap reach _ root⟩

/-- The map of the gated road, for the runtime that may use it. -/
theorem rootedTree_history_gated :
    RootedTree ⟨CandidateStore.empty, gatedRoad, true⟩ 0 ⟨[(0, 0), (1, 0)]⟩ :=
  (rootedTree_history listHeap noEvictions gatedRoad 100000
    [.query CandidateStore.empty true 0, .evict (fun _ => false) (fun _ => true)]
    CandidateStore.empty true 0 ⟨[(0, 0), (1, 0)]⟩).1 (by decide)

end PredicateCache

end Maps

end Routers
