import Routers.Trellis.Convergence

/-!
# Cutting behind the convergence point

A streaming caller cuts the trellis at its convergence point and goes on with the
layers from there.  The cut keeps every node of its first layer but forgets what
reaching them cost, so its later solutions agree with the uncut ones only as long as
the best of them still starts at the node the paths had fused in.

## Main results

* `solve_preferred` — a solve returns the node path preferred to all others.
* `cut_agrees` — **when the cut trellis continues the uncut solution.**
* `cut_revives_node` — a cut that does not.

## References

`src/libs/routers_trellis/src/solver/viterbi.rs`, `src/libs/routers_trellis/src/trellis.rs` and
`src/libs/routers_realtime/bin/matcher.rs`.
-/

namespace Routers

open Layered (back back_self RevLex Agree)

open Trellis ViterbiSolver

/-- Below `u32::MAX` the preference of node paths is the order of paths of the graph. -/
theorem preferred_of_precedes {t : Trellis} (hv : t.Valid) {nodes other : List ℕ}
    (hnodes : t.IsNodePath nodes) (hother : t.IsNodePath other) (hlive : t.pathCost nodes < infW)
    (h : t.graph.Precedes (t.layers - 1) (nodeAt nodes) (nodeAt other)) :
    t.Preferred nodes other := by
  have hinf := infW_lt_u32Max
  rw [pathCost_eq hv hnodes] at hlive
  rw [Preferred, pathCost_eq hv hnodes, pathCost_eq hv hother]
  rcases h with hlt | ⟨heq, hrev⟩
  · left
    omega
  · right
    exact ⟨by omega, hrev⟩

/-- **A solve returns the node path preferred to all others.** -/
theorem solve_preferred {t : Trellis} (hv : t.Valid) {p : Path}
    (h : ViterbiSolver.solve t = .ok p) {nodes : List ℕ} (hnodes : t.IsNodePath nodes) :
    p.nodes = nodes ∨ t.Preferred p.nodes nodes := by
  have hpos := hv.layers_pos
  have hcheap := isCheapest_of_solve hv h
  obtain ⟨hr, f, hf, rfl⟩ := solve_ok hv h
  have hnode : Agree (t.layers - 1) (nodeAt (route t f)) (back (pred t) (t.layers - 1) f) :=
    fun k hk => nodeAt_map _ (by omega)
  have hgraph := ((isNodePath_iff hpos).mp hnodes).2
  rcases (isTable hv hr).best_precedes le_rfl hf hgraph with hag | hprec
  · exact Or.inl (hcheap.isNodePath.ext hnodes hpos fun k hk => (hnode k hk).trans (hag k hk))
  · refine Or.inr (preferred_of_precedes hv hcheap.isNodePath hnodes ?_ ?_)
    · rw [hcheap.pathCost_eq]
      exact hcheap.lt_infW
    · exact hprec.congr_left fun k hk => (hnode k hk).symm

/-- The solution of a trellis starts at node `c` exactly when every node path that
starts elsewhere has one starting at `c` preferred to it. -/
theorem solve_starts_iff {t : Trellis} (hv : t.Valid) {p : Path}
    (h : ViterbiSolver.solve t = .ok p) (c : ℕ) :
    nodeAt p.nodes 0 = c ↔ ∀ nodes, t.IsNodePath nodes → nodeAt nodes 0 ≠ c →
      ∃ better, t.IsNodePath better ∧ nodeAt better 0 = c ∧ t.Preferred better nodes := by
  have hpath := (isCheapest_of_solve hv h).isNodePath
  constructor
  · intro hc nodes hnodes hne
    refine ⟨p.nodes, hpath, hc, ?_⟩
    rcases solve_preferred hv h hnodes with heq | hpref
    · exact absurd (heq ▸ hc) hne
    · exact hpref
  · intro hcond
    by_contra hne
    obtain ⟨better, hbetter, hc, hpref⟩ := hcond p.nodes hpath hne
    rcases solve_preferred hv h hbetter with heq | hpref'
    · exact hne (heq ▸ hc)
    · exact hpref.asymm hpref'

/-! ### The graph of a cut trellis -/

section Cut

variable {L : ℕ} {u t : Trellis} (hu : u.Valid) (ht : t.Valid) (hcut : IsCut L u t)
include hu ht hcut

theorem cut_isPath_iff (p : ℕ → ℕ) :
    (t.graph.drop L).IsPath (u.layers - 1) p ↔ u.graph.IsPath (u.layers - 1) p := by
  have hpos := hu.layers_pos
  refine forall₂_congr fun k hk => ?_
  show p k < t.width (L + k) ↔ p k < u.width k
  rw [hcut.matching.width_eq hu ht (by omega)]

theorem cut_cost_eq (p : ℕ → ℕ) {n : ℕ} (hn : n < u.layers) :
    (t.graph.drop L).cost p n = u.graph.cost p n := by
  have hnode : ∀ k < u.layers, ∀ j, (t.graph.drop L).node k j = u.graph.node k j := by
    intro k hk j
    show (t.nodeRow (L + k)).getD j 0 = (u.nodeRow k).getD j 0
    rw [hcut.matching.nodeRow_eq k hk]
  induction n with
  | zero => exact hnode 0 hn _
  | succ n ih =>
    rw [Layered.Graph.cost, Layered.Graph.cost, ih (by omega), hnode (n + 1) hn]
    congr 2
    exact (hcut.matching.edgeWeight_eq hu ht hn _ _).symm

theorem cut_precedes_iff (p q : ℕ → ℕ) : (t.graph.drop L).Precedes (u.layers - 1) p q ↔
    u.graph.Precedes (u.layers - 1) p q := by
  have hpos := hu.layers_pos
  rw [Layered.Graph.Precedes, Layered.Graph.Precedes, cut_cost_eq hu ht hcut p (by omega),
    cut_cost_eq hu ht hcut q (by omega)]

theorem cut_fullyResolved (hr : t.fullyResolved = true) : u.fullyResolved = true := by
  have hulen := hu.transitions_length
  have htlen := ht.transitions_length
  have hlayers := hcut.layers_eq
  rw [fullyResolved_iff] at hr ⊢
  intro k hk
  rw [hcut.matching.transition_eq k (by omega)]
  exact hr (L + k) (by omega)

/-- A cut of a solvable trellis is solvable. -/
theorem cut_solvable {p : Path} (h : ViterbiSolver.solve t = .ok p) :
    ∃ q, ViterbiSolver.solve u = .ok q := by
  have hpos := hu.layers_pos
  have hlayers := hcut.layers_eq
  obtain ⟨hr, f, hf, -⟩ := solve_ok ht h
  have T := isTable ht hr
  have hlast : L + (u.layers - 1) = t.layers - 1 := by omega
  rw [← hlast] at hf
  have hur := cut_fullyResolved hu ht hcut hr
  have hpath := (cut_isPath_iff hu ht hcut _).mp
    fun k hk => T.isPath_back (by omega) hf.lt hf.live (L + k) (by omega)
  have hcost := T.cost_continuation_lt (by omega) hf
  rw [cut_cost_eq hu ht hcut _ (by omega)] at hcost
  cases hsolve : ViterbiSolver.solve u with
  | ok q => exact ⟨q, rfl⟩
  | error e =>
    cases e with
    | notResolved l =>
      have hpend := (solve_notResolved_iff hu).mp hsolve
      rw [u.firstPending_eq_none_iff.mpr hur] at hpend
      cases hpend
    | unreachable =>
      have hdead := ((solve_unreachable_iff_allDead hu).mp hsolve).2 _ (isNodePath_map hpos hpath)
      rw [pathCost_map hu] at hdead
      have hinf := infW_lt_u32Max
      omega

/-- The solution of a cut comes first among all paths from the cut on. -/
theorem cut_best_precedes (hur : u.fullyResolved = true) {g : ℕ}
    (hg : u.graph.IsBest infW (cost u) (u.layers - 1) g) {p : ℕ → ℕ}
    (hp : (t.graph.drop L).IsPath (u.layers - 1) p) :
    Agree (u.layers - 1) (back (pred u) (u.layers - 1) g) p
      ∨ (t.graph.drop L).Precedes (u.layers - 1) (back (pred u) (u.layers - 1) g) p := by
  have hpu := (cut_isPath_iff hu ht hcut p).mp hp
  exact ((isTable hu hur).best_precedes le_rfl hg hpu).imp id
    (cut_precedes_iff hu ht hcut _ _).mpr

/-- The solutions of a trellis and of a cut of it agree from the cut on exactly when
the cut's solution starts where the trellis's passes. -/
theorem cut_solution_iff {p q : Path} (h : ViterbiSolver.solve t = .ok p)
    (hq : ViterbiSolver.solve u = .ok q) :
    q.nodes = p.nodes.drop L ↔ nodeAt q.nodes 0 = nodeAt p.nodes L := by
  have hpos := hu.layers_pos
  have hlayers := hcut.layers_eq
  obtain ⟨hr, f, hf, rfl⟩ := solve_ok ht h
  obtain ⟨hur, g, hg, rfl⟩ := solve_ok hu hq
  have T := isTable ht hr
  have U := isTable hu hur
  obtain ⟨m, hm⟩ : ∃ m, u.layers = m + 1 := ⟨u.layers - 1, by omega⟩
  have hlast : t.layers - 1 = L + m := by omega
  have hlast' : u.layers - 1 = m := by omega
  have hdrop : (route t f).drop L
      = (List.range u.layers).map fun k => back (pred t) (L + m) f (L + k) := by
    rw [route, hlast, hlayers, List.range_add, List.map_append,
      List.drop_left' (by simp), List.map_map]
    rfl
  have hagree : route u g = (route t f).drop L ↔
      Agree m (back (pred u) m g) (fun k => back (pred t) (L + m) f (L + k)) := by
    rw [hdrop, route, hlast']
    constructor
    · intro heq k hk
      have hnode := congrArg (fun l => nodeAt l k) heq
      rwa [nodeAt_map _ (by omega), nodeAt_map _ (by omega)] at hnode
    · intro hag
      exact List.map_congr_left fun k hk => hag k (by have := List.mem_range.mp hk; omega)
  rw [hlast] at hf
  rw [hlast'] at hg
  have hpath := (cut_isPath_iff hu ht hcut (back (pred u) m g)).mpr
    (by rw [hlast']; exact U.isPath_back (by omega) hg.lt hg.live)
  rw [hlast'] at hpath
  rw [hagree, T.cut_agrees_iff (by omega) hf rfl hpath fun p hp => ?_]
  · show _ ↔ nodeAt (route u g) 0 = nodeAt (route t f) L
    rw [route, route, nodeAt_map _ (by omega), nodeAt_map _ (by omega), hlast, hlast']
  · rw [← hlast'] at hp hg ⊢
    exact cut_best_precedes hu ht hcut hur hg hp

/-- A cut's solution that starts at a twin of the node where the trellis's passes goes on as
the trellis's does. -/
theorem cut_solution_of_twins {p q : Path} (h : ViterbiSolver.solve t = .ok p)
    (hq : ViterbiSolver.solve u = .ok q)
    (htwins : (t.graph.drop L).Twins (nodeAt q.nodes 0) (nodeAt p.nodes L)) {k : ℕ} (hk : 0 < k)
    (hku : k < u.layers) : nodeAt q.nodes k = nodeAt p.nodes (L + k) := by
  have hlayers := hcut.layers_eq
  obtain ⟨hr, f, hf, rfl⟩ := solve_ok ht h
  obtain ⟨hur, g, hg, rfl⟩ := solve_ok hu hq
  have hlast : t.layers - 1 = L + (u.layers - 1) := by omega
  rw [route, route, nodeAt_map _ (by omega), nodeAt_map _ (by omega), hlast] at htwins
  rw [route, route, nodeAt_map _ hku, nodeAt_map _ (by omega), hlast]
  rw [hlast] at hf
  have hpath := (cut_isPath_iff hu ht hcut _).mpr
    ((isTable hu hur).isPath_back le_rfl hg.lt hg.live)
  exact (isTable ht hr).cut_agrees_of_twins (by omega) hf rfl hpath
    (fun p hp => cut_best_precedes hu ht hcut hur hg hp) htwins hk (by omega)

end Cut

/-! ### Cutting at the convergence point -/

/-- **When the cut trellis continues the uncut solution.**  Let the paths of `t` have
fused at layer `L` in node `c`.  Whatever is appended, a solvable uncut trellis leaves
the cut one solvable, and the two solutions agree from `L` on exactly when every node
path of the cut trellis that starts at another node than `c` has one starting at `c`
preferred to it. -/
theorem cut_agrees {t : Trellis} (h : t.Reachable) {L c : ℕ}
    (hL : convergence t = .ok (some L)) (hc : t.FusesAt L c) {ops : List Append} {t' : Trellis}
    (hops : appendAll t.layers t ops = some t') {p : Path}
    (hp : ViterbiSolver.solve t' = .ok p) :
    ∃ cut cut' q, t.last (t.layers - L) = .ok cut ∧ appendAll cut.layers cut ops = some cut' ∧
      ViterbiSolver.solve cut' = .ok q ∧
      (q.nodes = p.nodes.drop L ↔
        ∀ nodes, cut'.IsNodePath nodes → nodeAt nodes 0 ≠ c →
          ∃ better, cut'.IsNodePath better ∧ nodeAt better 0 = c ∧
            cut'.Preferred better nodes) := by
  have hv := h.valid
  have hv' := appendAll_valid hv hops
  have hm := appendAll_matches hv.layers_pos hv le_rfl hops
  obtain ⟨hr, hlive, hlt, -⟩ := (convergence_ok_iff hv).mp hL
  obtain ⟨cut, hlast⟩ := last_accept (show 0 < t.layers - L by omega) hv.layers_pos
  have hcut := IsCut.of_last hlt.le hlast
  have hcutv := hv.last hlast
  have hlayers := hcut.layers_eq
  have hops' : appendAll (L + cut.layers) t ops = some t' := hlayers ▸ hops
  obtain ⟨cut', hcut', hiscut⟩ := appendAll_cut hcutv.layers_pos hcutv hv hcut hops'
  have hcutv' := appendAll_valid hcutv hcut'
  obtain ⟨q, hq⟩ := cut_solvable hcutv' hv' hiscut hp
  refine ⟨cut, cut', q, hlast, hcut', hq, ?_⟩
  -- the uncut solution passes through `c`, for the paths have fused there for good
  have hpass : nodeAt p.nodes L = c := by
    obtain ⟨hr', f, hf, rfl⟩ := solve_ok hv' hp
    have hfused := fused_grow hv hv' hm hr' hlt ((fused_iff hv hr hlt).mpr hc)
    have hle := hm.le'
    show nodeAt (route t' f) L = c
    rw [route, nodeAt_map _ (by omega)]
    exact hfused f hf.lt hf.live
  rw [cut_solution_iff hcutv' hv' hiscut hp hq, hpass]
  exact solve_starts_iff hcutv' hq c

/-- At a waist of one node the cut has nowhere else to start. -/
theorem cut_agrees_waist : ∃ cut cut' q, waist.last 2 = .ok cut ∧
    appendAll cut.layers cut [.addLayer 1, .fillTransition 0 [9, 1]] = some cut' ∧
    ViterbiSolver.solve cut' = .ok q ∧ q.nodes = [0, 1, 0] := by
  have hc : waist.FusesAt 1 0 := by
    intro j nodes hopt
    have hlt := ((isNodePath_iff (by decide)).mp hopt.isNodePath).2 1 (by decide)
    exact Nat.lt_one_iff.mp hlt
  have hops : appendAll 3 waist [.addLayer 1, .fillTransition 0 [9, 1]]
      = some ⟨[2, 1, 2, 1], [0, 0, 0, 0, 0, 0],
        [.resolved [1, 2], .resolved [5, 5], .resolved [9, 1]]⟩ := rfl
  obtain ⟨cut, cut', q, hcut, hcut', hq, hiff⟩ :=
    cut_agrees waist_reachable (show convergence waist = .ok (some 1) by decide) hc hops
      (show ViterbiSolver.solve _ = .ok ⟨[0, 0, 1, 0], 7⟩ by decide)
  refine ⟨cut, cut', q, hcut, hcut', hq, hiff.mpr fun nodes hnodes hne => absurd ?_ hne⟩
  have hwaist : waist.last (waist.layers - 1) = .ok ⟨[1, 2], [0, 0, 0], [.resolved [5, 5]]⟩ := rfl
  rw [hwaist] at hcut
  cases hcut
  cases hcut'
  have hlt := ((isNodePath_iff (by decide)).mp hnodes).2 0 (by decide)
  exact Nat.lt_one_iff.mp hlt

/-- Layer `1` is entered at node `0` only, so the paths have fused there. -/
def oneWay : Trellis := ⟨[1, 2], [0, 0, 0], [.resolved [1, infW]]⟩

/-- The cut keeps node `1` of the layer, which nothing reached, as a free start; a
cheaper edge out of it then carries the cut's solution away from the uncut one. -/
theorem cut_revives_node : oneWay.Reachable ∧ convergence oneWay = .ok (some 1) ∧
    ∃ t' cut cut' p q,
      appendAll 2 oneWay [.addLayer 1, .fillTransition 0 [5, 0]] = some t' ∧
      oneWay.last 1 = .ok cut ∧
      appendAll 1 cut [.addLayer 1, .fillTransition 0 [5, 0]] = some cut' ∧
      ViterbiSolver.solve t' = .ok p ∧ ViterbiSolver.solve cut' = .ok q ∧
      q.nodes ≠ p.nodes.drop 1 := by
  have hnew : Trellis.new [1, 2] = .ok ⟨[1, 2], [0, 0, 0], [.pending]⟩ := rfl
  have hedges : fillTransition ⟨[1, 2], [0, 0, 0], [.pending]⟩ 0 [1, noEdge] = (.ok (), oneWay) :=
    rfl
  refine ⟨(Trellis.Reachable.new hnew).fillTransition hedges, by decide, _, _, _, ⟨[0, 0, 0], 6⟩,
    ⟨[1, 0], 0⟩, rfl, rfl, rfl, ?_, ?_, ?_⟩
  · decide
  · decide
  · decide

end Routers
