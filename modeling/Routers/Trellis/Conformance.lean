import Routers.Trellis.Brute

/-!
# The two solvers agree

A cheapest node path is a notion of the trellis alone; both solvers find one, or
agree on why there is none.

## Main definitions

* `Trellis.IsCheapest` — a path below `infW` that no node path undercuts.

## Main results

* `conformance` — **the Viterbi solver and the brute-force solver agree.**

## References

`src/libs/routers_trellis/src/solver/viterbi.rs`, `src/libs/routers_trellis/src/solver/brute.rs` and
`src/libs/routers_trellis/src/solver/mod.rs`.
-/

namespace Routers

namespace Trellis

/-- `p` is a node path with its own cost, below `infW`, and no node path is cheaper. -/
structure IsCheapest (t : Trellis) (p : Path) : Prop where
  isNodePath : t.IsNodePath p.nodes
  pathCost_eq : t.pathCost p.nodes = p.cost
  lt_infW : p.cost < infW
  le : ∀ nodes, t.IsNodePath nodes → p.cost ≤ t.pathCost nodes

/-- Cheapest paths cost the same. -/
theorem IsCheapest.cost_eq {t : Trellis} {p q : Path} (hp : t.IsCheapest p)
    (hq : t.IsCheapest q) : p.cost = q.cost := by
  apply le_antisymm
  · rw [← hq.pathCost_eq]
    exact hp.le _ hq.isNodePath
  · rw [← hp.pathCost_eq]
    exact hq.le _ hp.isNodePath

/-- No node path of a trellis stays below `infW`. -/
def AllDead (t : Trellis) : Prop := ∀ nodes, t.IsNodePath nodes → infW ≤ t.pathCost nodes

theorem IsCheapest.not_allDead {t : Trellis} {p : Path} (hp : t.IsCheapest p) : ¬ t.AllDead := by
  intro hdead
  have hle := hdead _ hp.isNodePath
  rw [hp.pathCost_eq] at hle
  exact hle.not_gt hp.lt_infW

/-- The saturated cost and the graph's cost lie on the same side of `infW`. -/
theorem pathCost_lt_iff {t : Trellis} (hv : t.Valid) {nodes : List ℕ}
    (hnodes : t.IsNodePath nodes) :
    t.pathCost nodes < infW ↔ t.graph.cost (nodeAt nodes) (t.layers - 1) < infW := by
  have hinf := infW_lt_u32Max
  rw [pathCost_eq hv hnodes]
  omega

/-- A cheapest path crosses every boundary by an edge that is there. -/
theorem IsCheapest.edgeWeight_lt {t : Trellis} {p : Path} (hp : t.IsCheapest p) (hv : t.Valid)
    {k : ℕ} (hk : k + 1 < t.layers) :
    t.edgeWeight k (nodeAt p.nodes k) (nodeAt p.nodes (k + 1)) < infW := by
  have hcost : t.pathCost p.nodes < infW := hp.pathCost_eq ▸ hp.lt_infW
  rw [pathCost_lt_iff hv hp.isNodePath] at hcost
  exact (t.graph.edge_le_cost (by omega) (nodeAt p.nodes)).trans_lt hcost

end Trellis

open Trellis

/-! ### The Viterbi solver -/

/-- A path the Viterbi solver returns is a cheapest one. -/
theorem ViterbiSolver.isCheapest_of_solve {t : Trellis} (hv : t.Valid) {p : Path}
    (h : ViterbiSolver.solve t = .ok p) : t.IsCheapest p := by
  have hpos := hv.layers_pos
  have hinf := infW_lt_u32Max
  obtain ⟨hr, f, hf, rfl⟩ := solve_ok hv h
  have T := isTable hv hr
  have hback := T.isPath_back le_rfl hf.lt hf.live
  exact
    { isNodePath := isNodePath_map hpos hback
      pathCost_eq := by
        show t.pathCost (route t f) = cost t (t.layers - 1) f
        have hlive := hf.live
        rw [route, pathCost_map hv, T.cost_back le_rfl hf.lt hf.live]
        omega
      lt_infW := hf.live
      le := by
        intro nodes hnodes
        have hle := T.best_le le_rfl hf ((isNodePath_iff hpos).mp hnodes).2
        have hlive := hf.live
        rw [pathCost_eq hv hnodes]
        show cost t (t.layers - 1) f ≤ _
        omega }

/-- The Viterbi solver finds a fully resolved trellis unreachable exactly when no
node path stays below `infW`. -/
theorem ViterbiSolver.solve_unreachable_iff_allDead {t : Trellis} (hv : t.Valid) :
    ViterbiSolver.solve t = .error .unreachable ↔ t.fullyResolved = true ∧ t.AllDead := by
  have hpos := hv.layers_pos
  rw [solve_unreachable_iff hv]
  refine and_congr_right fun hr => ?_
  have T := isTable hv hr
  constructor
  · intro hdead nodes hnodes
    by_contra hlt
    have hpath := ((isNodePath_iff hpos).mp hnodes).2
    have hcost := (pathCost_lt_iff hv hnodes).mp (not_le.mp hlt)
    have hle := T.le_cost le_rfl hpath hcost
    exact (hdead _ (hpath _ le_rfl)).not_gt (hle.trans_lt hcost)
  · intro hdead j hj
    by_contra hlt
    have hlive := not_le.mp hlt
    have hback := isNodePath_map hpos (T.isPath_back le_rfl hj hlive)
    have hle := hdead _ hback
    have hinf := infW_lt_u32Max
    rw [pathCost_map hv, T.cost_back le_rfl hj hlive] at hle
    omega

/-! ### The brute-force solver -/

/-- The brute-force solver on a fully resolved trellis ends, with a cheapest path or
with the verdict that there is none. -/
theorem BruteForceSolver.solve_resolved {t : Trellis} (hv : t.Valid)
    (hr : t.fullyResolved = true) : ∃ r, BruteForceSolver.solve t = some r ∧
      ((r = .error .unreachable ∧ t.AllDead) ∨ ∃ p, r = .ok p ∧ t.IsCheapest p) := by
  have hstart : t.IsNodePath (List.replicate t.layers 0) := by
    refine (isNodePath_iff hv.layers_pos).mpr ⟨List.length_replicate, fun k hk => ?_⟩
    have hk' : k < t.layers := by have := hv.layers_pos; omega
    rw [nodeAt, List.getD_eq_getElem _ _ (by simpa using hk'), List.getElem_replicate]
    exact hv.width_pos_of_lt hk'
  have hrank : rank t.widths (List.replicate t.layers 0) = 0 := rank_replicate_zero t.widths
  obtain ⟨found, hfound, hmin, -, horigin⟩ :=
    search_spec t t.widths.prod ⟨[], infW⟩ hstart (by omega)
  rw [hrank] at hmin
  rw [BruteForceSolver.solve, t.firstPending_eq_none_iff.mpr hr]
  simp only [hfound, Option.map_some]
  by_cases hdead : infW ≤ found.cost
  · rw [if_pos hdead]
    exact ⟨_, rfl, Or.inl ⟨rfl, fun nodes hnodes => hdead.trans (hmin nodes hnodes (by omega))⟩⟩
  · rw [if_neg hdead]
    refine ⟨_, rfl, Or.inr ⟨found, rfl, ?_⟩⟩
    rcases horigin with rfl | ⟨nodes, hnodes, rfl⟩
    · exact absurd le_rfl hdead
    · exact ⟨hnodes, rfl, not_le.mp hdead, fun nodes' h => hmin nodes' h (by omega)⟩

/-! ### Conformance -/

/-- **The two solvers agree** on every trellis that accepted calls can produce: the
same error, or the same cost; and what the Viterbi solver returns is a cheapest node
path, unless a boundary is pending or every node path costs at least `infW`. -/
theorem conformance {t : Trellis} (h : t.Reachable) :
    ∃ brute, BruteForceSolver.solve t = some brute ∧
      (∀ e, ViterbiSolver.solve t = .error e ↔ brute = .error e) ∧
      (∀ p, ViterbiSolver.solve t = .ok p →
        (∃ q, brute = .ok q ∧ q.cost = p.cost) ∧ t.IsNodePath p.nodes ∧
          t.pathCost p.nodes = p.cost ∧ p.cost < infW ∧
          ∀ nodes, t.IsNodePath nodes → p.cost ≤ t.pathCost nodes) ∧
      (∀ l, ViterbiSolver.solve t = .error (.notResolved l) ↔ t.firstPending = some l) ∧
      (ViterbiSolver.solve t = .error .unreachable ↔
        t.fullyResolved = true ∧ ∀ nodes, t.IsNodePath nodes → infW ≤ t.pathCost nodes) := by
  have hv := h.valid
  have hdead := ViterbiSolver.solve_unreachable_iff_allDead hv
  have hpend := fun l => ViterbiSolver.solve_notResolved_iff hv (l := l)
  cases hfirst : t.firstPending with
  | some l =>
    have hviterbi := ViterbiSolver.solve_notResolved hv hfirst
    refine ⟨.error (.notResolved l), by rw [BruteForceSolver.solve, hfirst], fun e => ?_,
      fun p hp => ?_, fun l' => ?_, hdead⟩
    · rw [hviterbi]
    · rw [hviterbi] at hp
      cases hp
    · rw [hpend, hfirst]
  | none =>
    have hr := t.firstPending_eq_none_iff.mp hfirst
    obtain ⟨brute, hbrute, hcases⟩ := BruteForceSolver.solve_resolved hv hr
    refine ⟨brute, hbrute, fun e => ?_, fun p hp => ?_, fun l => by rw [hpend, hfirst], hdead⟩
    · rcases hcases with ⟨rfl, hall⟩ | ⟨q, rfl, hq⟩
      · rw [hdead.mpr ⟨hr, hall⟩]
      · cases hsolve : ViterbiSolver.solve t with
        | ok p => simp
        | error e' =>
          cases e' with
          | notResolved l =>
            rw [hpend, hfirst] at hsolve
            cases hsolve
          | unreachable => exact absurd (hdead.mp hsolve).2 hq.not_allDead
    · have hcheap := ViterbiSolver.isCheapest_of_solve hv hp
      refine ⟨?_, hcheap.isNodePath, hcheap.pathCost_eq, hcheap.lt_infW, hcheap.le⟩
      rcases hcases with ⟨-, hall⟩ | ⟨q, rfl, hq⟩
      · exact absurd hall hcheap.not_allDead
      · exact ⟨q, rfl, hq.cost_eq hcheap⟩

/-- Two layers of one and two nodes, all weights known. -/
def forked : Trellis := ⟨[1, 2], [0, 3, 0], [.resolved [2, 4]]⟩

theorem forked_reachable : forked.Reachable := by
  have hnew : Trellis.new [1, 2] = .ok ⟨[1, 2], [0, 0, 0], [.pending]⟩ := rfl
  have hedges : fillTransition ⟨[1, 2], [0, 0, 0], [.pending]⟩ 0 [2, 4]
      = (.ok (), ⟨[1, 2], [0, 0, 0], [.resolved [2, 4]]⟩) := rfl
  have hnodes : fillNodes ⟨[1, 2], [0, 0, 0], [.resolved [2, 4]]⟩ 1 [3, 0] = (.ok (), forked) := rfl
  exact ((Trellis.Reachable.new hnew).fillTransition hedges).fillNodes hnodes

theorem conformance_forked : ∃ q, BruteForceSolver.solve forked = some (.ok q) ∧ q.cost = 4 := by
  obtain ⟨brute, hbrute, -, hok, -⟩ := conformance forked_reachable
  obtain ⟨⟨q, rfl, hq⟩, -⟩ := hok ⟨[0, 1], 4⟩ (by decide)
  exact ⟨q, hbrute, hq⟩

/-- A trellis of two layers, each a single node, whose boundary is still pending. -/
def pendingPair : Trellis := ⟨[1, 1], [0, 0], [.pending]⟩

theorem pendingPair_reachable : pendingPair.Reachable :=
  Trellis.Reachable.new (show Trellis.new [1, 1] = .ok pendingPair from rfl)

/-- On a pending boundary every edge weighs `infW`, so every node path costs at least
that, yet the trellis is not reported unreachable. -/
theorem pendingPair_not_unreachable : pendingPair.Reachable ∧
    ¬ (ViterbiSolver.solve pendingPair = .error .unreachable ↔
      ∀ nodes, pendingPair.IsNodePath nodes → infW ≤ pendingPair.pathCost nodes) := by
  refine ⟨pendingPair_reachable, fun hiff => ?_⟩
  have hall : ∀ nodes, pendingPair.IsNodePath nodes → infW ≤ pendingPair.pathCost nodes := by
    intro nodes hnodes
    obtain ⟨hlen, hlt⟩ := (isNodePath_iff (by decide)).mp hnodes
    have h0 := hlt 0 (by decide)
    have h1 := hlt 1 (by decide)
    rw [← map_nodeAt nodes, hlen]
    simp only [graph_width, show pendingPair.width 0 = 1 from rfl,
      show pendingPair.width 1 = 1 from rfl, Nat.lt_one_iff] at h0 h1
    simp [pendingPair, layers, List.range_succ_eq_map, h0, h1]
    decide
  have hsolve := hiff.mpr hall
  have hpend : ViterbiSolver.solve pendingPair = .error (.notResolved 0) := by decide
  rw [hpend] at hsolve
  cases hsolve

end Routers
