import Mathlib.Data.List.Basic
import Mathlib.Order.Basic
import Mathlib.Tactic

/-!
# Enumerating a graph cheapest first

The costs of a graph accumulate along its paths by any operation at all and are compared
by a key.  A cheapest-first enumeration takes one node after another, each at an offer
made by a node taken before it, and never a dearer offer than another node has.  No law
is asked of the costs, so what is taken need not be cheapest: it is where the cheapest
paths may be followed to their ends without a fall in cost.

## Main definitions

* `CostGraph`, `CostGraph.Path` — the graphs, and the costs of their paths.
* `CostGraph.Enumerates` — a cheapest-first enumeration.
* `CostGraph.Shortest` — every reachable node once, in order of cost, at its least cost.
* `CostGraph.Along`, `CostGraph.Onward` — the costs of paths that are cheapest all along,
  and the nodes reached along them whichever of equal costs is taken.
* `CostGraph.Alike` — equal costs lead on to the same nodes.

## Main results

* `CostGraph.Enumerates.shortest` — **where every node is reached onward, an enumeration
  is shortest.**
* `CostGraph.Enumerates.along` — **a shortest enumeration goes along cheapest paths.**
* `CostGraph.onward_of_along` — the two conditions agree where equal costs lead on alike.
-/

/-- A graph whose moves have costs: `zero` at the root, `add` along a move, `key` to
compare them by. -/
structure CostGraph (V C K : Type*) where
  Move : V → V → C → Prop
  zero : C
  add : C → C → C
  key : C → K

namespace CostGraph

variable {V C K : Type*} [LinearOrder K] (G : CostGraph V C K)

/-- The paths from `root` to a node, with the nodes visited, the last one first, and the
cost accumulated.  If `simple` no node is visited twice. -/
inductive Path (simple : Bool) (root : V) : V → List V → C → Prop
  | nil : Path simple root root [root] G.zero
  | snoc {u v visited c m} : Path simple root u visited c → G.Move u v m →
      (simple = true → v ∉ visited) → Path simple root v (v :: visited) (G.add c m)

/-- `c` is what some path to `v` costs. -/
def Cost (simple : Bool) (root v : V) (c : C) : Prop := ∃ visited, G.Path simple root v visited c

/-- `c` is what a path to `v` costs, and none is cheaper. -/
structure Least (simple : Bool) (root v : V) (c : C) : Prop where
  cost : G.Cost simple root v c
  le : ∀ c', G.Cost simple root v c' → G.key c ≤ G.key c'

/-- The costs of the paths that are cheapest at each of their nodes and grow no cheaper
on the way. -/
inductive Along (simple : Bool) (root : V) : V → C → Prop
  | root : G.Least simple root root G.zero → Along simple root root G.zero
  | snoc {u v c m} : Along simple root u c → G.Move u v m →
      G.Least simple root v (G.add c m) → G.key c ≤ G.key (G.add c m) →
      Along simple root v (G.add c m)

/-- From `u` at the cost `c` some move leads on to `v` at its least cost, without a fall. -/
def LeadsOn (simple : Bool) (root u : V) (c : C) (v : V) : Prop :=
  ∃ m, G.Move u v m ∧ G.Least simple root v (G.add c m) ∧ G.key c ≤ G.key (G.add c m)

/-- The nodes reached along such paths whichever of their costs each node is taken at. -/
inductive Onward (simple : Bool) (root : V) : V → Prop
  | root : G.Least simple root root G.zero → Onward simple root root
  | snoc {u v} : Onward simple root u →
      (∀ c, G.Along simple root u c → G.LeadsOn simple root u c v) → Onward simple root v

/-- Of two such costs of a node, which have the same key, each leads on where the other
does. -/
def Alike (simple : Bool) (root : V) : Prop :=
  ∀ u c c' v, G.Along simple root u c → G.Along simple root u c' →
    G.LeadsOn simple root u c v → G.LeadsOn simple root u c' v

/-- An offer: the root at no cost, or the end of a move from a node taken. -/
def Offered (root : V) (taken : List (V × C)) (o : V × C) : Prop :=
  o = (root, G.zero) ∨ ∃ x ∈ taken, ∃ m, G.Move x.1 o.1 m ∧ o.2 = G.add x.2 m

/-- A cheapest-first enumeration: each node is taken once, at an offer made before, none
to a node not yet taken being cheaper, until none is left. -/
structure Enumerates (root : V) (taken : List (V × C)) : Prop where
  nodup : (taken.map Prod.fst).Nodup
  offered : ∀ before x after, taken = before ++ x :: after → G.Offered root before x
  least : ∀ before x after, taken = before ++ x :: after → ∀ o, G.Offered root before o →
    o.1 ∉ before.map Prod.fst → G.key x.2 ≤ G.key o.2
  exhausted : ∀ o, G.Offered root taken o → o.1 ∈ taken.map Prod.fst

/-- Every node that a path leads to is taken once, in order of cost, at its least cost. -/
structure Shortest (simple : Bool) (root : V) (taken : List (V × C)) : Prop where
  reachable : ∀ v, v ∈ taken.map Prod.fst ↔ ∃ c, G.Cost simple root v c
  nodup : (taken.map Prod.fst).Nodup
  ordered : taken.Pairwise fun x y => G.key x.2 ≤ G.key y.2
  least : ∀ x ∈ taken, G.Least simple root x.1 x.2

variable {G} {simple : Bool} {root : V}

/-! ### Costs -/

omit [LinearOrder K] in
theorem cost_root : G.Cost simple root root G.zero := ⟨[root], Path.nil⟩

omit [LinearOrder K] in
/-- What holds at the root and on along every move holds of all costs. -/
theorem Cost.closed {P : V → C → Prop} (hroot : P root G.zero)
    (hmove : ∀ u c v m, P u c → G.Move u v m → P v (G.add c m)) {v : V} {c : C}
    (h : G.Cost simple root v c) : P v c := by
  obtain ⟨visited, hpath⟩ := h
  induction hpath with
  | nil => exact hroot
  | snoc _ hm _ ih => exact hmove _ _ _ _ ih hm

theorem Along.least {v : V} {c : C} (h : G.Along simple root v c) : G.Least simple root v c := by
  cases h with
  | root h => exact h
  | snoc _ _ h _ => exact h

theorem Onward.exists_along {v : V} (h : G.Onward simple root v) :
    ∃ c, G.Along simple root v c := by
  induction h with
  | root h => exact ⟨_, Along.root h⟩
  | snoc _ hon ih =>
    obtain ⟨c, hc⟩ := ih
    obtain ⟨m, hm, hleast, hle⟩ := hon c hc
    exact ⟨_, hc.snoc hm hleast hle⟩

/-- **Where equal costs lead on alike**, a node reached along a cheapest path is reached
onward. -/
theorem onward_of_along (halike : G.Alike simple root) {v : V} {c : C}
    (h : G.Along simple root v c) : G.Onward simple root v := by
  induction h with
  | root h => exact Onward.root h
  | @snoc u v c m hu hm hleast hle ih =>
    exact ih.snoc fun c' hc' => halike u c c' v hu hc' ⟨m, hm, hleast, hle⟩

/-! ### Enumerations -/

/-- What holds of each item if it does of those before it holds of all. -/
theorem forall_mem_of_splits {α : Type*} {P : α → Prop} {l : List α}
    (h : ∀ before x after, l = before ++ x :: after → (∀ y ∈ before, P y) → P x) :
    ∀ x ∈ l, P x := by
  induction l using List.reverseRecOn with
  | nil => simp
  | append_singleton l x ih =>
    have hl : ∀ y ∈ l, P y := ih fun before y after heq =>
      h before y (after ++ [x]) (by rw [heq]; simp)
    intro y hy
    rcases List.mem_append.mp hy with hy | hy
    · exact hl y hy
    · rw [List.mem_singleton.mp hy]
      exact h l x [] rfl hl

theorem pairwise_of_splits {α : Type*} {R : α → α → Prop} {l : List α}
    (h : ∀ before x after, l = before ++ x :: after → ∀ y ∈ before, R y x) : l.Pairwise R := by
  induction l using List.reverseRecOn with
  | nil => exact List.Pairwise.nil
  | append_singleton l x ih =>
    rw [List.pairwise_append]
    refine ⟨ih fun before y after heq => h before y (after ++ [x]) (by rw [heq]; simp),
      List.pairwise_singleton R x, fun y hy z hz => ?_⟩
    rw [List.mem_singleton.mp hz]
    exact h l x [] rfl y hy

section Enumerates

variable {taken : List (V × C)}

/-- The node of an item is not among those taken before it. -/
theorem Enumerates.fresh (h : G.Enumerates root taken) {before after : List (V × C)} {x : V × C}
    (heq : taken = before ++ x :: after) : x.1 ∉ before.map Prod.fst := by
  intro hmem
  have hnodup := h.nodup
  rw [heq, List.map_append, List.nodup_append] at hnodup
  exact hnodup.2.2 x.1 hmem x.1 (by simp) rfl

/-- What is taken is what a simple path through nodes taken before costs. -/
theorem Enumerates.path (h : G.Enumerates root taken) :
    ∀ before x after, taken = before ++ x :: after →
      ∃ visited ⊆ x.1 :: before.map Prod.fst, G.Path simple root x.1 visited x.2 := by
  intro before
  induction hn : before.length using Nat.strong_induction_on generalizing before with
  | _ n ih =>
    intro x after heq
    rcases h.offered before x after heq with rfl | ⟨y, hy, m, hm, hcost⟩
    · exact ⟨[root], by simp, Path.nil⟩
    · obtain ⟨early, late, rfl⟩ := List.append_of_mem hy
      obtain ⟨visited, hvisited, hpath⟩ := ih early.length (by
        rw [← hn, List.length_append, List.length_cons]
        omega) early rfl y (late ++ x :: after) (by rw [heq]; simp)
      have hsub : visited ⊆ (early ++ y :: late).map Prod.fst := by
        intro w hw
        rcases List.mem_cons.mp (hvisited hw) with rfl | hw
        · simp
        · rw [List.map_append]
          exact List.mem_append_left _ hw
      -- the node is taken for the first time, so the path has not been there
      have hfresh : x.1 ∉ visited := fun hmem => h.fresh heq (hsub hmem)
      refine ⟨x.1 :: visited, List.cons_subset_cons _ hsub, ?_⟩
      rw [hcost]
      exact hpath.snoc hm fun _ => hfresh

theorem Enumerates.cost (h : G.Enumerates root taken) {x : V × C} (hx : x ∈ taken) :
    G.Cost simple root x.1 x.2 := by
  obtain ⟨before, after, heq⟩ := List.append_of_mem hx
  obtain ⟨visited, -, hpath⟩ := h.path before x after heq
  exact ⟨visited, hpath⟩

/-- The nodes taken are those that paths lead to. -/
theorem Enumerates.reachable (h : G.Enumerates root taken) (v : V) :
    v ∈ taken.map Prod.fst ↔ ∃ c, G.Cost simple root v c := by
  constructor
  · intro hv
    obtain ⟨x, hx, rfl⟩ := List.mem_map.mp hv
    exact ⟨x.2, h.cost hx⟩
  · rintro ⟨c, hc⟩
    refine hc.closed (P := fun v _ => v ∈ taken.map Prod.fst)
      (h.exhausted _ (Or.inl rfl)) fun u c v m hu hm => ?_
    obtain ⟨x, hx, rfl⟩ := List.mem_map.mp hu
    exact h.exhausted (v, G.add x.2 m) (Or.inr ⟨x, hx, m, hm, rfl⟩)

/-- While what is taken is taken along cheapest paths, a node reached onward and not yet
taken is no cheaper than some offer. -/
theorem Onward.frontier {before : List (V × C)}
    (hbefore : ∀ x ∈ before, G.Along simple root x.1 x.2) {v : V} (h : G.Onward simple root v)
    (hv : v ∉ before.map Prod.fst) :
    ∃ o, G.Offered root before o ∧ o.1 ∉ before.map Prod.fst ∧
      ∀ c, G.Cost simple root v c → G.key o.2 ≤ G.key c := by
  induction h with
  | root h => exact ⟨(root, G.zero), Or.inl rfl, hv, h.le⟩
  | @snoc u v hu hon ih =>
    by_cases hmem : u ∈ before.map Prod.fst
    · obtain ⟨x, hx, rfl⟩ := List.mem_map.mp hmem
      obtain ⟨m, hm, hleast, -⟩ := hon x.2 (hbefore x hx)
      exact ⟨(v, G.add x.2 m), Or.inr ⟨x, hx, m, hm, rfl⟩, hv, hleast.le⟩
    · obtain ⟨o, ho, hnot, hle⟩ := ih hmem
      obtain ⟨c, hc⟩ := hu.exists_along
      obtain ⟨m, -, hleast, hmono⟩ := hon c hc
      exact ⟨o, ho, hnot, fun c' hc' =>
        (hle c hc.least.cost).trans (hmono.trans (hleast.le c' hc'))⟩

/-- So what is taken next is no dearer than any node reached onward and not yet taken. -/
theorem Enumerates.key_le (h : G.Enumerates root taken) {before after : List (V × C)} {x : V × C}
    (heq : taken = before ++ x :: after)
    (hbefore : ∀ y ∈ before, G.Along simple root y.1 y.2) {v : V} (hv : G.Onward simple root v)
    (hnot : v ∉ before.map Prod.fst) {c : C} (hc : G.Cost simple root v c) :
    G.key x.2 ≤ G.key c := by
  obtain ⟨o, ho, hfresh, hle⟩ := hv.frontier hbefore hnot
  exact (h.least before x after heq o ho hfresh).trans (hle c hc)

/-- What is taken next is taken along a cheapest path, if at its least cost and at none less
than what was taken before. -/
theorem Enumerates.along_next (h : G.Enumerates root taken) {before after : List (V × C)}
    {x : V × C} (heq : taken = before ++ x :: after)
    (hbefore : ∀ y ∈ before, G.Along simple root y.1 y.2) (hleast : G.Least simple root x.1 x.2)
    (hordered : ∀ y ∈ before, G.key y.2 ≤ G.key x.2) : G.Along simple root x.1 x.2 := by
  rcases h.offered before x after heq with hroot | ⟨y, hy, m, hm, hcost⟩
  · rw [hroot] at hleast ⊢
    exact Along.root hleast
  · have hle := hordered y hy
    rw [hcost] at hleast hle ⊢
    exact (hbefore y hy).snoc hm hleast hle

/-- Where every node is reached onward, what is taken is no dearer than what is taken
after it. -/
theorem Enumerates.ordered_next (h : G.Enumerates root taken)
    (honward : ∀ v c, G.Cost simple root v c → G.Onward simple root v)
    {before after : List (V × C)} {x : V × C} (heq : taken = before ++ x :: after)
    (hbefore : ∀ y ∈ before, G.Along simple root y.1 y.2) :
    ∀ y ∈ before, G.key y.2 ≤ G.key x.2 := by
  intro y hy
  have hcost : G.Cost simple root x.1 x.2 := h.cost (heq ▸ by simp)
  obtain ⟨early, late, rfl⟩ := List.append_of_mem hy
  have hsplit : taken = early ++ y :: (late ++ x :: after) := by rw [heq]; simp
  refine h.key_le hsplit (fun w hw => hbefore w (List.mem_append_left _ hw)) (honward _ _ hcost)
    ?_ hcost
  -- the node was still to be taken then
  have hfresh := h.fresh heq
  rw [List.map_append, List.mem_append, not_or] at hfresh
  exact hfresh.1

/-- Where every node is reached onward, all is taken along cheapest paths. -/
theorem Enumerates.along_of_onward (h : G.Enumerates root taken)
    (honward : ∀ v c, G.Cost simple root v c → G.Onward simple root v) :
    ∀ x ∈ taken, G.Along simple root x.1 x.2 := by
  refine forall_mem_of_splits fun before x after heq hbefore => ?_
  have hcost : G.Cost simple root x.1 x.2 := h.cost (heq ▸ by simp)
  refine h.along_next heq hbefore ⟨hcost, fun c hc => ?_⟩
    (h.ordered_next honward heq hbefore)
  exact h.key_le heq hbefore (honward _ _ hcost) (h.fresh heq) hc

/-- **Where every node that a path leads to is reached onward, an enumeration is
shortest.** -/
theorem Enumerates.shortest (h : G.Enumerates root taken)
    (honward : ∀ v c, G.Cost simple root v c → G.Onward simple root v) :
    G.Shortest simple root taken := by
  have halong := h.along_of_onward honward
  refine ⟨h.reachable, h.nodup, ?_, fun x hx => (halong x hx).least⟩
  refine pairwise_of_splits fun before x after heq => h.ordered_next honward heq fun y hy => ?_
  exact halong y (heq ▸ List.mem_append_left _ hy)

/-- **A shortest enumeration goes along cheapest paths.** -/
theorem Enumerates.along (h : G.Enumerates root taken) (hshort : G.Shortest simple root taken)
    {v : V} {c : C} (hc : G.Cost simple root v c) : ∃ c', G.Along simple root v c' := by
  have halong : ∀ x ∈ taken, G.Along simple root x.1 x.2 := by
    refine forall_mem_of_splits fun before x after heq hbefore => ?_
    have hordered := hshort.ordered
    rw [heq, List.pairwise_append] at hordered
    exact h.along_next heq hbefore (hshort.least x (heq ▸ by simp))
      fun y hy => hordered.2.2 y hy x List.mem_cons_self
  obtain ⟨x, hx, rfl⟩ := List.mem_map.mp ((hshort.reachable v).mpr ⟨c, hc⟩)
  exact ⟨x.2, halong x hx⟩

end Enumerates

end CostGraph
