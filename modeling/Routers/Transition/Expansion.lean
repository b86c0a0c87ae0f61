import Routers.Transition.Reach

/-!
# Candidate expansion

How one candidate is reached from another on the road network: along the edge they
share, or by the route the parent pointers of the reachability map spell out.  The map
is the one the cache answers with; a cache that serves one network and one runtime has
no other answer.

## Main definitions

* `Predicates.path` — following the parents from a leaf back to the root.
* `Expansion.reach`, `Expansion.route` — how a candidate is reached.
* `Contiguous` — a chain of edges of a network between two nodes.

## Main results

* `Predicates.Rooted.path` — the parents lead from every key to the root.
* `Expansion.route_contiguous` — **a route is a chain of edges of the network.**
* `Expansion.isSome_reach_iff` — **when a candidate is reached.**

## References

`src/libs/routers_transition/src/weigh/expansion.rs`.
-/

namespace Routers

variable {E P M R : Type} [DecidableEq E]

/-! ### Following parents -/

namespace Predicates

/-- The nodes from `cursor` back to the root.  The walk of the code is not bounded; on a
map whose parents lead to the root each node is met once. -/
def walkBack (parents : Predicates E) (root : E) : ℕ → E → Option (List E)
  | 0, cursor => if cursor = root then some [cursor] else none
  | fuel + 1, cursor =>
    if cursor = root then some [cursor]
    else
      match parents.get cursor with
      | none => none
      | some parent => (walkBack parents root fuel parent).map (cursor :: ·)

/-- The nodes from `root` to `leaf` inclusive, or `none` if `leaf` is not in the map. -/
def path (parents : Predicates E) (root leaf : E) : Option (List E) :=
  (parents.walkBack root parents.entries.length leaf).map List.reverse

/-- An edge leads from `parent` to `child`. -/
def Linked (map : Network E P M R) (child parent : E) : Prop :=
  ∃ e ∈ map.graph, e.source = parent ∧ e.target = child

/-- Every entry is the root's, or names the node of an earlier entry with an edge from
there. -/
structure Rooted (map : Network E P M R) (root : E) (parents : Predicates E) : Prop where
  nodup : (parents.entries.map Prod.fst).Nodup
  parent : ∀ before v p after, parents.entries = before ++ (v, p) :: after →
    v = root ∨ p ∈ before.map Prod.fst ∧ Linked map v p

theorem get_eq_some {parents : Predicates E} {key p : E} (h : parents.get key = some p) :
    (key, p) ∈ parents.entries := by
  rw [get, Option.map_eq_some_iff] at h
  obtain ⟨entry, hfind, rfl⟩ := h
  have hkey := List.find?_some hfind
  rw [decide_eq_true_eq] at hkey
  rw [← hkey]
  exact List.mem_of_find?_eq_some hfind

theorem isSome_get_iff {parents : Predicates E} {key : E} :
    (parents.get key).isSome ↔ key ∈ parents.entries.map Prod.fst := by
  simp [get, List.find?_isSome]

variable {map : Network E P M R} {root : E} {parents : Predicates E}

theorem Rooted.get_eq_some (h : parents.Rooted map root) {key p : E}
    (hmem : (key, p) ∈ parents.entries) : parents.get key = some p := by
  obtain ⟨q, hq⟩ := Option.isSome_iff_exists.mp (isSome_get_iff.mpr (List.mem_map_of_mem hmem))
  have heq := List.inj_on_of_nodup_map h.nodup (Predicates.get_eq_some hq) hmem rfl
  cases heq
  exact hq

omit [DecidableEq E] in
/-- An edge leads to the node of an entry from its parent, whose own entry comes earlier. -/
theorem Rooted.earlier (h : parents.Rooted map root) {before after : List (E × E)} {v p : E}
    (hsplit : parents.entries = before ++ (v, p) :: after) (hroot : v ≠ root) :
    Linked map v p ∧ ∃ first q rest, parents.entries = first ++ (p, q) :: rest ∧
      first.length < before.length := by
  obtain ⟨hp, hlinked⟩ := (h.parent _ _ _ _ hsplit).resolve_left hroot
  obtain ⟨⟨u, q⟩, hu, rfl⟩ := List.mem_map.mp hp
  obtain ⟨first, rest, rfl⟩ := List.append_of_mem hu
  refine ⟨hlinked, first, q, rest ++ (v, u) :: after, ?_, by simp⟩
  rw [hsplit]
  simp

/-- The parents lead from the node of an entry to the root, an edge at a time. -/
theorem Rooted.walkBack (h : parents.Rooted map root) : ∀ (n : ℕ) {before after : List (E × E)}
    {v p : E}, parents.entries = before ++ (v, p) :: after → before.length = n →
      ∀ fuel, n < fuel → ∃ nodes, parents.walkBack root fuel v = some (v :: nodes) ∧
        (v :: nodes).getLast? = some root ∧ (v :: nodes).IsChain (Linked map) := by
  intro n
  induction n using Nat.strong_induction_on with
  | _ n ih =>
    intro before after v p hsplit hlen fuel hfuel
    cases fuel with
    | zero => omega
    | succ fuel =>
      rw [Predicates.walkBack]
      by_cases hroot : v = root
      · rw [if_pos hroot]
        exact ⟨[], rfl, by simp [hroot], by simp⟩
      · rw [if_neg hroot]
        have hget : parents.get v = some p := h.get_eq_some (hsplit ▸ by simp)
        -- the parent's entry comes earlier, so its walk is shorter
        obtain ⟨hlinked, first, q, rest, hearlier, hshort⟩ := h.earlier hsplit hroot
        obtain ⟨nodes, hwalk, hlast, hchain⟩ :=
          ih first.length (hlen ▸ hshort) hearlier rfl fuel (by omega)
        refine ⟨p :: nodes, ?_, ?_, ?_⟩
        · rw [hget]
          simp only [hwalk, Option.map_some]
        · rw [List.getLast?_cons_cons]
          exact hlast
        · exact List.IsChain.cons_cons hlinked hchain

/-- **The parents lead from every key to the root**, an edge at a time. -/
theorem Rooted.path (h : parents.Rooted map root) {leaf : E}
    (hleaf : leaf = root ∨ (parents.get leaf).isSome) :
    ∃ nodes, parents.path root leaf = some nodes ∧ nodes.head? = some root ∧
      nodes.getLast? = some leaf ∧ nodes.IsChain fun a b => Linked map b a := by
  have hback : ∃ nodes, parents.walkBack root parents.entries.length leaf = some (leaf :: nodes) ∧
      (leaf :: nodes).getLast? = some root ∧ (leaf :: nodes).IsChain (Linked map) := by
    by_cases hroot : leaf = root
    · refine ⟨[], ?_, by simp [hroot], by simp⟩
      cases parents.entries.length <;> rw [Predicates.walkBack, if_pos hroot]
    · have hkey := hleaf.resolve_left hroot
      rw [isSome_get_iff] at hkey
      obtain ⟨⟨v, p⟩, hmem, rfl⟩ := List.mem_map.mp hkey
      obtain ⟨before, after, hsplit⟩ := List.append_of_mem hmem
      refine h.walkBack before.length hsplit rfl _ ?_
      rw [hsplit]
      simp
  obtain ⟨nodes, hwalk, hlast, hchain⟩ := hback
  refine ⟨(leaf :: nodes).reverse, ?_, ?_, ?_, ?_⟩
  · rw [Predicates.path, hwalk]
    rfl
  · rw [List.head?_reverse]
    exact hlast
  · simp
  · rw [List.isChain_reverse]
    exact hchain

/-- A node the path leads to is the root or a key. -/
theorem key_of_path {leaf : E} {nodes : List E} (h : parents.path root leaf = some nodes) :
    leaf = root ∨ (parents.get leaf).isSome := by
  by_cases hroot : leaf = root
  · exact Or.inl hroot
  · right
    rw [Predicates.path, Option.map_eq_some_iff] at h
    obtain ⟨back, hback, -⟩ := h
    cases hfuel : parents.entries.length with
    | zero =>
      rw [hfuel, walkBack, if_neg hroot] at hback
      cases hback
    | succ fuel =>
      rw [hfuel, walkBack, if_neg hroot] at hback
      cases hget : parents.get leaf with
      | none =>
        rw [hget] at hback
        cases hback
      | some p => rfl

end Predicates

/-! ### Routes -/

/-- A chain of edges of the network from one node to another. -/
def Contiguous (map : Network E P M R) : E → List (Edge E) → E → Prop
  | a, [], b => a = b
  | a, e :: edges, b => e ∈ map.graph ∧ e.source = a ∧ Contiguous map e.target edges b

namespace Expansion

/-- The edges between consecutive nodes. -/
def edgesAlong (ctx : RoutingContext E P M R) (nodes : List E) : List (Edge E) :=
  (nodes.zip nodes.tail).filterMap fun pair => ctx.edge pair.1 pair.2

theorem edgesAlong_cons {ctx : RoutingContext E P M R} {u v : E} {e : Edge E}
    (h : ctx.edge u v = some e) (nodes : List E) :
    edgesAlong ctx (u :: v :: nodes) = e :: edgesAlong ctx (v :: nodes) := by
  simp [edgesAlong, h]

/-- Between linked nodes no edge is missing. -/
theorem contiguous_edgesAlong {ctx : RoutingContext E P M R} : ∀ {nodes : List E} {a b : E},
    nodes.head? = some a → nodes.getLast? = some b →
      (nodes.IsChain fun a b => Predicates.Linked ctx.map b a) →
        Contiguous ctx.map a (edgesAlong ctx nodes) b := by
  intro nodes
  induction nodes with
  | nil =>
    intro a b ha
    cases ha
  | cons u nodes ih =>
    intro a b ha hb hchain
    cases ha
    cases nodes with
    | nil =>
      cases hb
      rfl
    | cons v nodes =>
      obtain ⟨⟨e, hmem, hsource, htarget⟩, hrest⟩ := List.isChain_cons_cons.mp hchain
      have hedge : ctx.edge u v = some e :=
        ctx.map.edge_eq_some_iff.mpr ⟨hmem, hsource, htarget⟩
      rw [edgesAlong_cons hedge]
      refine ⟨hmem, hsource, ?_⟩
      rw [htarget]
      exact ih rfl (by simpa using hb) hrest

variable [Inhabited E] [Geometry P]

theorem rooted_predicates (heap : Heap) (reach : ℕ) (ctx : RoutingContext E P M R) (root : E) :
    (PredicateCache.predicates heap reach ctx root).Rooted ctx.map root := by
  obtain ⟨hnodup, hparent⟩ := PredicateCache.predicates_spec heap reach ctx root
  exact ⟨hnodup, hparent⟩

/-- The road edges linking the source's edge to the target's, walked from the map rooted
at the end of the source's edge. -/
def route (heap : Heap) (reach : ℕ) (ctx : RoutingContext E P M R) (source target : Candidate E P) :
    Option (List (Edge E)) :=
  let parents := PredicateCache.predicates heap reach ctx source.edge.target
  (parents.path source.edge.target target.edge.source).map (edgesAlong ctx)

/-- How `to` is reached from `src`, or `none` when it lies outside the bound. -/
def reach (heap : Heap) (reachDistance : ℕ) (ctx : RoutingContext E P M R)
    (src dst : CandidateRef) : Option (Reachable E) :=
  match ctx.candidate src, ctx.candidate dst with
  | some source, some target =>
    match source.directlyReachable target ctx.map with
    | none => none
    | some true => some (Reachable.direct src dst)
    | some false => (route heap reachDistance ctx source target).map (Reachable.new src dst)
  | _, _ => none

variable {heap : Heap} {reachDistance : ℕ} {ctx : RoutingContext E P M R}

/-- **A route is a chain of edges of the network**, from the end of the one candidate's
edge to the start of the other's. -/
theorem route_contiguous {source target : Candidate E P} {edges : List (Edge E)}
    (h : route heap reachDistance ctx source target = some edges) :
    Contiguous ctx.map source.edge.target edges target.edge.source := by
  rw [route, Option.map_eq_some_iff] at h
  obtain ⟨nodes, hpath, rfl⟩ := h
  obtain ⟨nodes', hpath', hhead, hlast, hchain⟩ :=
    (rooted_predicates heap reachDistance ctx source.edge.target).path (Predicates.key_of_path hpath)
  rw [hpath] at hpath'
  cases hpath'
  exact contiguous_edgesAlong hhead hlast hchain

/-- The map at the end of the one candidate's edge reaches the start of the other's. -/
def Routable (heap : Heap) (reachDistance : ℕ) (ctx : RoutingContext E P M R)
    (source target : Candidate E P) : Prop :=
  target.edge.source = source.edge.target ∨
    ((PredicateCache.predicates heap reachDistance ctx source.edge.target).get
      target.edge.source).isSome

theorem isSome_route_iff {source target : Candidate E P} :
    (route heap reachDistance ctx source target).isSome ↔
      Routable heap reachDistance ctx source target := by
  rw [route, Option.isSome_map]
  constructor
  · intro h
    obtain ⟨nodes, hnodes⟩ := Option.isSome_iff_exists.mp h
    exact Predicates.key_of_path hnodes
  · intro h
    obtain ⟨nodes, hnodes, -⟩ :=
      (rooted_predicates heap reachDistance ctx source.edge.target).path h
    rw [hnodes]
    rfl

/-- What is reached is reached from `src`, and by a chain of edges unless along a
shared edge. -/
theorem reach_spec {src dst : CandidateRef} {r : Reachable E}
    (h : reach heap reachDistance ctx src dst = some r) :
    r.source = src ∧ r.target = dst ∧ (r.resolutionMethod = .standard →
      ∃ source target, ctx.candidate src = some source ∧ ctx.candidate dst = some target ∧
        Contiguous ctx.map source.edge.target r.path target.edge.source) := by
  unfold reach at h
  split at h
  · next source target hsource htarget =>
    split at h
    · cases h
    · cases h
      exact ⟨rfl, rfl, fun hmethod => by cases hmethod⟩
    · rw [Option.map_eq_some_iff] at h
      obtain ⟨edges, hroute, rfl⟩ := h
      exact ⟨rfl, rfl, fun _ => ⟨source, target, hsource, htarget, route_contiguous hroute⟩⟩
  · cases h

/-- The candidates share an edge in the order of travel, or do not and the map at the
end of the one's edge reaches the start of the other's. -/
def Bridged (heap : Heap) (reachDistance : ℕ) (ctx : RoutingContext E P M R)
    (src dst : CandidateRef) : Prop :=
  ∃ source target, ctx.candidate src = some source ∧ ctx.candidate dst = some target ∧
    (source.directlyReachable target ctx.map = some true ∨
      source.directlyReachable target ctx.map = some false ∧
        Routable heap reachDistance ctx source target)

/-- **When a candidate is reached.** -/
theorem isSome_reach_iff {src dst : CandidateRef} :
    (reach heap reachDistance ctx src dst).isSome ↔ Bridged heap reachDistance ctx src dst := by
  unfold reach Bridged
  cases hsource : ctx.candidate src with
  | none => simp
  | some source =>
    cases htarget : ctx.candidate dst with
    | none => simp
    | some target =>
      simp only [Option.some.injEq, exists_and_left, exists_eq_left']
      cases hdirect : source.directlyReachable target ctx.map with
      | none => simp
      | some direct =>
        cases direct with
        | true => simp
        | false => simp [isSome_route_iff]

end Expansion

end Routers
