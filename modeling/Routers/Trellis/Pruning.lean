import Routers.Trellis.Conformance

/-!
# Pruned trellises

A trellis with fewer edges than another one, the rest at the same weights, has no cheaper paths.
What solves it solves the other one too, at no higher cost.

## Main definitions

* `Trellis.Prunes` — the same nodes, and some of the edges.

## Main results

* `Trellis.Prunes.pathCost_le` — a path costs no more with all of the edges.
* `Trellis.Prunes.solve` — **a solution of a pruned trellis is undercut by one of the whole.**

## References

`src/libs/routers_trellis/src/trellis.rs`.
-/

namespace Routers

namespace Trellis

/-- `t` has the nodes of `u` and some of its edges, and is not resolved where `u` is pending. -/
structure Prunes (t u : Trellis) : Prop where
  widths_eq : u.widths = t.widths
  nodes_eq : u.nodes = t.nodes
  edge_eq : ∀ k i j, k + 1 < t.layers → i < t.width k → j < t.width (k + 1) →
    t.edgeWeight k i j < infW → u.edgeWeight k i j = t.edgeWeight k i j
  resolved : t.fullyResolved = true → u.fullyResolved = true

namespace Prunes

variable {t u : Trellis} (h : t.Prunes u)
include h

theorem layers_eq : u.layers = t.layers := congrArg List.length h.widths_eq

theorem isNodePath_iff {nodes : List ℕ} : u.IsNodePath nodes ↔ t.IsNodePath nodes := by
  rw [IsNodePath, IsNodePath, h.widths_eq]

theorem node_eq (k j : ℕ) : u.graph.node k j = t.graph.node k j := by
  rw [graph_node, graph_node, nodeRow, nodeRow, offset, offset, h.widths_eq, h.nodes_eq,
    offset, offset]

/-- An edge weighs no more in the whole trellis. -/
theorem edge_le (hu : u.Valid) (hr : u.fullyResolved = true) {k i j : ℕ} (hk : k + 1 < t.layers)
    (hi : i < t.width k) (hj : j < t.width (k + 1)) : u.edgeWeight k i j ≤ t.edgeWeight k i j := by
  by_cases hlt : t.edgeWeight k i j < infW
  · exact (h.edge_eq k i j hk hi hj hlt).le
  · exact (edgeWeight_le hu hr (by rwa [h.layers_eq]) i j).trans (not_lt.mp hlt)

/-- A path costs no more with all of the edges. -/
theorem pathCost_le (ht : t.Valid) (hu : u.Valid) (hr : u.fullyResolved = true) {nodes : List ℕ}
    (hnodes : t.IsNodePath nodes) : u.pathCost nodes ≤ t.pathCost nodes := by
  rw [pathCost_eq hu (h.isNodePath_iff.mpr hnodes), pathCost_eq ht hnodes, h.layers_eq]
  apply min_le_min_right
  refine Layered.Graph.cost_le_cost (fun k _ => (h.node_eq k _).le) fun k hk => ?_
  exact h.edge_le hu hr (by omega) (hnodes.nodeAt_lt (by omega)) (hnodes.nodeAt_lt (by omega))

/-- **What solves a pruned trellis solves the whole one**, at no higher cost. -/
theorem solve (ht : t.Valid) (hu : u.Valid) {p : Path} (hp : ViterbiSolver.solve t = .ok p) :
    ∃ q, ViterbiSolver.solve u = .ok q ∧ q.cost ≤ p.cost := by
  have hr := h.resolved (ViterbiSolver.fullyResolved_of_solve ht hp)
  have hcheap := ViterbiSolver.isCheapest_of_solve ht hp
  have hpath := h.isNodePath_iff.mpr hcheap.isNodePath
  have hle : u.pathCost p.nodes ≤ p.cost :=
    (h.pathCost_le ht hu hr hcheap.isNodePath).trans_eq hcheap.pathCost_eq
  cases hsolve : ViterbiSolver.solve u with
  | ok q => exact ⟨q, rfl, ((ViterbiSolver.isCheapest_of_solve hu hsolve).le _ hpath).trans hle⟩
  | error e =>
    -- Neither error fits: nothing is pending, and the path is alive.
    cases e with
    | notResolved l =>
      rw [ViterbiSolver.solve_notResolved_iff hu, u.firstPending_eq_none_iff.mpr hr] at hsolve
      cases hsolve
    | unreachable =>
      have hdead := (ViterbiSolver.solve_unreachable_iff_allDead hu).mp hsolve
      exact absurd ((hdead.2 _ hpath).trans hle) hcheap.lt_infW.not_ge

end Prunes

end Trellis

end Routers
