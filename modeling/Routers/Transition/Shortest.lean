import Routers.Library.CheapestFirst
import Routers.Transition.Cache
import Routers.Transition.Greedy

/-!
# What the search is worth

The bounded search enumerates a graph cheapest first, so it finds shortest paths where
those may be followed to their ends without a fall in cost.  An average of road classes
falls when a path comes from a worse road onto a better one, and then the search yields
nodes out of order, and nodes at more than their least cost.

## Main definitions

* `FiniteGraph`, `FiniteGraph.costs` — what a search runs on, as a graph of costs.
* `FiniteGraph.reachAll` — the items of a search that is not cut off.
* `FiniteGraph.ShortestPaths` — each reachable node once, in order, at its least cost.

## Main results

* `FiniteGraph.enumerates_reachAll` — **the search enumerates the graph cheapest first.**
* `FiniteGraph.shortestPaths_iff` — **when what it yields are shortest paths.**
* `FiniteGraph.detour_not_shortestPaths` — a search that yields others.

## References

`src/libs/routers_transition/src/primitives/algorithms/dijkstra.rs`.
-/

namespace Routers

open DijkstraReachable (stateless Run)

/-- Successors whose ends are among finitely many nodes. -/
structure FiniteGraph (E : Type) where
  successors : E → List (E × WeightAndDistance)
  nodes : List E
  mem_nodes : ∀ u, ∀ w ∈ successors u, w.1 ∈ nodes

namespace FiniteGraph

section Enumeration

variable {E : Type} (g : FiniteGraph E)

/-- The graph with the costs of its moves, which compare by their representations. -/
def costs : CostGraph E WeightAndDistance ℕ where
  Move u v m := (v, m) ∈ g.successors u
  zero := WeightAndDistance.zero
  add := WeightAndDistance.add
  key := WeightAndDistance.repr

/-- The nodes of items, each with its total cost. -/
def labels (items : List (DijkstraReachableItem E)) : List (E × WeightAndDistance) :=
  items.map fun item => (item.node, item.totalCost)

instance [DecidableEq E] (u v : E) (m : WeightAndDistance) : Decidable (g.costs.Move u v m) :=
  inferInstanceAs (Decidable ((v, m) ∈ g.successors u))

theorem labels_nodes (items : List (DijkstraReachableItem E)) :
    (labels items).map Prod.fst = items.map (·.node) := by
  simp [labels]

/-- The offers of a search are those of the graph. -/
theorem mem_offers_iff {root : E} {items : List (DijkstraReachableItem E)}
    {o : E × WeightAndDistance} :
    o ∈ Dijkstra.offers g.successors root items ↔ g.costs.Offered root (labels items) o := by
  rw [Dijkstra.offers, List.mem_cons, Dijkstra.mem_made]
  simp only [CostGraph.Offered, labels, List.mem_map, exists_exists_and_eq_and]
  rfl

variable [DecidableEq E] (heap : Heap) (root : E)

/-- What the iterator yields when it is not stopped. -/
def reachAll : List (DijkstraReachableItem E) :=
  (Dijkstra.items (stateless g.successors) (fun _ => true) (g.nodes.length + 1)
    (Dijkstra.reach heap root) ()).1

/-- **The search enumerates the graph cheapest first.** -/
theorem enumerates_reachAll : g.costs.Enumerates root (labels (g.reachAll heap root)) := by
  obtain ⟨s, hrun, hnone⟩ := Dijkstra.exists_run_exhausted g.mem_nodes heap root
  obtain ⟨hroot, hnext⟩ := Dijkstra.closed_of_exhausted hrun hnone
  have hinv : (Dijkstra.reach heap root).Inv g.successors root :=
    DijkstraReachable.inv_reach g.successors root
  have hgreedy := hrun.greedy hinv (DijkstraReachable.best_reach g.successors root)
  have hoffers : ∀ before, Dijkstra.offers g.successors root [] ++ Dijkstra.made g.successors before
      = Dijkstra.offers g.successors root before := fun _ => rfl
  -- the items up to a label are those up to its item
  have hsplit : ∀ before x after, labels (g.reachAll heap root) = before ++ x :: after →
      ∃ early item late, g.reachAll heap root = early ++ item :: late ∧ labels early = before ∧
        (item.node, item.totalCost) = x := by
    intro before x after heq
    obtain ⟨early, rest, hitems, hearly, hrest⟩ := List.map_eq_append_iff.mp heq
    obtain ⟨item, late, rfl, hitem, -⟩ := List.map_eq_cons_iff.mp hrest
    exact ⟨early, item, late, hitems, hearly, hitem⟩
  refine ⟨?_, fun before x after heq => ?_, fun before x after heq o ho hnot => ?_, fun o ho => ?_⟩
  · rw [labels_nodes]
    exact (hrun.item hinv).2.1
  · obtain ⟨early, item, late, hitems, rfl, rfl⟩ := hsplit before x after heq
    have hmem := (hgreedy early item late hitems).1
    rw [hoffers, mem_offers_iff] at hmem
    exact hmem
  · obtain ⟨early, item, late, hitems, rfl, rfl⟩ := hsplit before x after heq
    rw [labels_nodes] at hnot
    rw [← mem_offers_iff, ← hoffers] at ho
    exact (hgreedy early item late hitems).2 o ho (DijkstraReachable.not_settled_reach root _) hnot
  · rw [labels_nodes, List.mem_map]
    rw [← mem_offers_iff, Dijkstra.offers, List.mem_cons, Dijkstra.mem_made] at ho
    rcases ho with rfl | ⟨item, hitem, m, hm, -⟩
    · exact hroot
    · exact hnext item hitem (o.1, m) hm

/-! ### Shortest paths -/

/-- What the iterator yields enumerates the shortest paths from `root`: every node that a
path leads to exactly once, in order of total cost, and no path to it is cheaper.  If
`simple`, a path visits no node twice. -/
def ShortestPaths (simple : Bool) : Prop :=
  g.costs.Shortest simple root (labels (g.reachAll heap root))

/-! ### Graphs given by their edges -/

/-- The graph of a list of edges. -/
def ofEdges (edges : List (E × E × WeightAndDistance)) : FiniteGraph E where
  successors u := (edges.filter fun e => e.1 = u).map Prod.snd
  nodes := edges.map fun e => e.2.1
  mem_nodes u w hw := by
    obtain ⟨e, he, rfl⟩ := List.mem_map.mp hw
    exact List.mem_map.mpr ⟨e, (List.mem_filter.mp he).1, rfl⟩

section Costs

variable {g root} {simple : Bool} {all : List (E × WeightAndDistance)}
  (hroot : (root, WeightAndDistance.zero) ∈ all)
  (hmoves : ∀ x ∈ all, ∀ w ∈ g.successors x.1, (w.1, x.2.add w.2) ∈ all)
include hroot hmoves

omit [DecidableEq E] in
/-- A list that has the root and is closed under moves has all costs. -/
theorem mem_of_cost {v : E} {c : WeightAndDistance} (h : g.costs.Cost simple root v c) :
    (v, c) ∈ all :=
  h.closed hroot fun u c v m hu hm => hmoves (u, c) hu (v, m) hm

omit [DecidableEq E] in
theorem least_of_costs {v : E} {c : WeightAndDistance} (hc : g.costs.Cost simple root v c)
    (hle : ∀ y ∈ all, y.1 = v → c.repr ≤ y.2.repr) : g.costs.Least simple root v c :=
  ⟨hc, fun c' hc' => hle (v, c') (mem_of_cost hroot hmoves hc') rfl⟩

theorem shortestPaths_of_costs
    (hordered : (labels (g.reachAll heap root)).Pairwise fun x y => x.2.repr ≤ y.2.repr)
    (hle : ∀ x ∈ labels (g.reachAll heap root), ∀ y ∈ all, y.1 = x.1 → x.2.repr ≤ y.2.repr) :
    g.ShortestPaths heap root simple := by
  have henum := g.enumerates_reachAll heap root
  exact ⟨henum.reachable, henum.nodup, hordered,
    fun x hx => least_of_costs hroot hmoves (henum.cost hx) (hle x hx)⟩

end Costs

/-! ### When they are shortest -/

/-- **When the search yields shortest paths.**  It always settles every reachable node
exactly once and then ends.  They are settled in order and at their least costs only if to
each leads a path that is cheapest at all its nodes and nowhere falls in cost; and if they
are reached along such paths whichever of its equal costs a node is settled at.  That is
the same where equal costs lead on alike. -/
theorem shortestPaths_iff (simple : Bool) :
    (∃ s : DijkstraReachable E heap,
      Run g.successors (Dijkstra.reach heap root) (g.reachAll heap root) s ∧
        s.next (stateless g.successors) () = none) ∧
    ((g.reachAll heap root).map (·.node)).Nodup ∧
    (∀ v, (∃ item ∈ g.reachAll heap root, item.node = v) ↔ ∃ c, g.costs.Cost simple root v c) ∧
    ((∀ v c, g.costs.Cost simple root v c → g.costs.Onward simple root v) →
      g.ShortestPaths heap root simple) ∧
    (g.ShortestPaths heap root simple →
      ∀ v c, g.costs.Cost simple root v c → ∃ c', g.costs.Along simple root v c') ∧
    (g.costs.Alike simple root →
      (g.ShortestPaths heap root simple ↔
        ∀ v c, g.costs.Cost simple root v c → ∃ c', g.costs.Along simple root v c')) := by
  have henum := g.enumerates_reachAll heap root
  refine ⟨Dijkstra.exists_run_exhausted g.mem_nodes heap root, ?_, fun v => ?_, henum.shortest,
    fun h v c hc => henum.along h hc, fun halike => ⟨fun h v c hc => henum.along h hc, fun h => ?_⟩⟩
  · rw [← labels_nodes]
    exact henum.nodup
  · rw [← henum.reachable, labels_nodes, List.mem_map]
  · refine henum.shortest fun v c hc => ?_
    obtain ⟨c', hc'⟩ := h v c hc
    exact CostGraph.onward_of_along halike hc'

end Enumeration

/-- Of two ways to a node, the one through another node is the shorter. -/
def triangle : FiniteGraph ℕ :=
  ofEdges [(0, 2, WeightAndDistance.new 1 300), (0, 1, WeightAndDistance.new 1 100),
    (1, 2, WeightAndDistance.new 1 100)]

theorem shortestPaths_iff_triangle : triangle.ShortestPaths listHeap 0 true := by
  let all : List (ℕ × WeightAndDistance) :=
    [(0, ⟨0, 0, 0⟩), (1, ⟨1, 1, 100⟩), (2, ⟨1, 1, 300⟩), (2, ⟨2, 2, 200⟩)]
  have hroot : (0, WeightAndDistance.zero) ∈ all := by decide
  have hmoves : ∀ x ∈ all, ∀ w ∈ triangle.successors x.1, (w.1, x.2.add w.2) ∈ all := by decide
  have hmove : triangle.costs.Move 0 1 (WeightAndDistance.new 1 100) := by decide
  have hmove' : triangle.costs.Move 1 2 (WeightAndDistance.new 1 100) := by decide
  have hpath : triangle.costs.Path true 0 1 [1, 0] ⟨1, 1, 100⟩ :=
    CostGraph.Path.nil.snoc hmove (by decide)
  have hpath' : triangle.costs.Path true 0 2 [2, 1, 0] ⟨2, 2, 200⟩ :=
    hpath.snoc hmove' (by decide)
  have hzero : triangle.costs.Onward true 0 0 :=
    CostGraph.Onward.root (least_of_costs hroot hmoves CostGraph.cost_root (by decide))
  -- each node is settled at the one least cost it has
  have hone : triangle.costs.Onward true 0 1 := by
    refine hzero.snoc fun c hc => ?_
    have hmem := mem_of_cost hroot hmoves hc.least.cost
    obtain rfl : c = ⟨0, 0, 0⟩ := by simpa [all] using hmem
    exact ⟨_, hmove, least_of_costs hroot hmoves ⟨_, hpath⟩ (by decide), by decide⟩
  have htwo : triangle.costs.Onward true 0 2 := by
    refine hone.snoc fun c hc => ?_
    have hmem := mem_of_cost hroot hmoves hc.least.cost
    obtain rfl : c = ⟨1, 1, 100⟩ := by simpa [all] using hmem
    exact ⟨_, hmove', least_of_costs hroot hmoves ⟨_, hpath'⟩ (by decide), by decide⟩
  refine (triangle.shortestPaths_iff listHeap 0 true).2.2.2.1 fun v c hc => ?_
  have hv : v = 0 ∨ v = 1 ∨ v = 2 := by
    have hmem := mem_of_cost hroot hmoves hc
    simp only [all, List.mem_cons, Prod.mk.injEq, List.not_mem_nil, or_false] at hmem
    omega
  rcases hv with rfl | rfl | rfl
  · exact hzero
  · exact hone
  · exact htwo

/-- A bad road leads to a good one, by which the average falls. -/
def detour : FiniteGraph ℕ :=
  ofEdges [(0, 1, WeightAndDistance.new 4 100), (0, 3, WeightAndDistance.new 3 150),
    (1, 2, WeightAndDistance.new 1 10), (2, 3, WeightAndDistance.new 1 10)]

example : (detour.reachAll listHeap 0).map (fun item => (item.node, item.totalCost.repr))
    = [(0, 0), (3, 1350), (1, 1600), (2, 440)] := by decide

theorem detour_not_shortestPaths :
    ¬ detour.ShortestPaths listHeap 0 true ∧ ¬ detour.ShortestPaths listHeap 0 false := by
  have hunordered : ¬ (labels (detour.reachAll listHeap 0)).Pairwise
      fun x y => x.2.repr ≤ y.2.repr := by decide
  exact ⟨fun h => hunordered h.ordered, fun h => hunordered h.ordered⟩

/-- Two ways to a node cost the same, but only from one of these costs a shortest path goes
on.  Which is met first is up to the order of successors. -/
def parting (first second : ℕ) : FiniteGraph ℕ :=
  ofEdges [(0, first, WeightAndDistance.new 1 100), (0, second, WeightAndDistance.new 1 100),
    (1, 3, WeightAndDistance.new 1 300), (2, 3, WeightAndDistance.new 3 0),
    (3, 4, WeightAndDistance.new 2 100)]

/-- **Equal costs that lead on differently** leave it to the heap whether the search yields
shortest paths. -/
theorem parting_shortestPaths :
    (parting 2 1).ShortestPaths listHeap 0 true ∧ ¬ (parting 1 2).ShortestPaths listHeap 0 true := by
  constructor
  · let all : List (ℕ × WeightAndDistance) :=
      [(0, ⟨0, 0, 0⟩), (1, ⟨1, 1, 100⟩), (2, ⟨1, 1, 100⟩), (3, ⟨2, 2, 400⟩), (3, ⟨4, 2, 100⟩),
        (4, ⟨4, 3, 500⟩), (4, ⟨6, 3, 200⟩)]
    have hroot : (0, WeightAndDistance.zero) ∈ all := by decide
    exact shortestPaths_of_costs listHeap hroot (by decide) (by decide) (by decide)
  · intro h
    have hlabel : (4, (⟨6, 3, 200⟩ : WeightAndDistance))
        ∈ labels ((parting 1 2).reachAll listHeap 0) := by decide
    -- the way not taken goes on at less
    have hone : (parting 1 2).costs.Path true 0 1 [1, 0] ⟨1, 1, 100⟩ :=
      CostGraph.Path.nil.snoc (m := WeightAndDistance.new 1 100) (by decide) (by decide)
    have hthree : (parting 1 2).costs.Path true 0 3 [3, 1, 0] ⟨2, 2, 400⟩ :=
      hone.snoc (m := WeightAndDistance.new 1 300) (by decide) (by decide)
    have hpath : (parting 1 2).costs.Path true 0 4 [4, 3, 1, 0] ⟨4, 3, 500⟩ :=
      hthree.snoc (m := WeightAndDistance.new 2 100) (by decide) (by decide)
    have hle : (800 : ℕ) ≤ 500 := (h.least _ hlabel).le _ ⟨_, hpath⟩
    omega

end FiniteGraph

end Routers
