import Routers.Trellis.Table

/-!
# What a solve returns

The flat buffer the forward pass fills holds the rows of the cost table, and the
backtrack reads the best path off them; so a solve returns the path that comes
first among all node paths, or the reason there is none.

## Main definitions

* `ViterbiSolver.route` — the node path read back from a final node.
* `ViterbiSolver.IsFinal` — the final node a solve picks.

## Main results

* `ViterbiSolver.solve_resolved` — what a solve of a fully resolved trellis returns.
* `ViterbiSolver.solve_ok`, `solve_unreachable_iff`, `solve_notResolved_iff`.
* `Trellis.pathCost_eq` — `pathCost` is the graph's cost, saturated.

## References

`src/libs/routers_trellis/src/solver/viterbi.rs` and `src/libs/routers_trellis/src/path.rs`.
-/

namespace Routers

open Layered (back back_self back_succ_of_le)

namespace ViterbiSolver

open Trellis

/-! ### The flat table -/

/-- The positions of layer `k` in the node buffer. -/
def layerRange (t : Trellis) (k : ℕ) : Range := ⟨t.offset k, t.offset (k + 1)⟩

/-- The flat table after the first `n` boundaries. -/
def flat (t : Trellis) (n : ℕ) : List ℕ :=
  forwardPass ((List.range n).map (boundaryAt t)) t.nodes

theorem flat_succ (t : Trellis) (n : ℕ) :
    flat t (n + 1) = copyFromSlice (flat t n) (layerRange t (n + 1))
      (enter (boundaryAt t n) (slice (flat t n) (layerRange t n))) := by
  rw [flat, flat, forwardPass, List.range_succ, List.map_append, List.foldl_append]
  rfl

/-- Position `j` of the last layer is the final node a solve picks: the first of
those with the least cost. -/
structure IsFinal (t : Trellis) (f : ℕ) : Prop where
  lt : f < t.width (t.layers - 1)
  le : ∀ j < t.width (t.layers - 1), cost t (t.layers - 1) f ≤ cost t (t.layers - 1) j
  first : ∀ j < t.width (t.layers - 1),
    cost t (t.layers - 1) j ≤ cost t (t.layers - 1) f → f ≤ j

/-- The node path read back from node `f` of the last layer. -/
def route (t : Trellis) (f : ℕ) : List ℕ :=
  (List.range t.layers).map (back (pred t) (t.layers - 1) f)

section Resolved

variable {t : Trellis} (hv : t.Valid) (hr : t.fullyResolved = true)
include hv hr

/-- After `n` boundaries the flat table holds the rows of the first `n + 1` layers. -/
theorem flat_spec {n : ℕ} (hn : n < t.layers) :
    (flat t n).length = t.nodes.length ∧
      ∀ k ≤ n, slice (flat t n) (layerRange t k) = row t k := by
  induction n with
  | zero =>
    refine ⟨rfl, fun k hk => ?_⟩
    obtain rfl : k = 0 := by omega
    rfl
  | succ n ih =>
    obtain ⟨hlen, hrows⟩ := ih (by omega)
    have hstop : t.offset (n + 1 + 1) ≤ (flat t n).length := by
      rw [hlen, hv.nodes_length]
      exact t.offset_le _
    have hmono : t.offset (n + 1) ≤ t.offset (n + 1 + 1) := t.offset_mono (by omega)
    have hrow : enter (boundaryAt t n) (slice (flat t n) (layerRange t n)) = row t (n + 1) := by
      rw [hrows n le_rfl, row]
    have hsrc : (row t (n + 1)).length = t.offset (n + 1 + 1) - t.offset (n + 1) := by
      rw [length_row hv hr hn, t.offset_succ (n + 1), Nat.add_sub_cancel_left]
    rw [flat_succ, hrow]
    refine ⟨?_, fun k hk => ?_⟩
    · rw [length_copyFromSlice _ _ _ hmono hstop hsrc, hlen]
    · rcases Nat.lt_or_ge n k with hk' | hk'
      · obtain rfl : k = n + 1 := by omega
        exact slice_copyFromSlice_self _ _ hmono hstop hsrc
      · -- the rows below are out of the way of the write
        rw [← hrows k hk']
        exact slice_copyFromSlice_of_disjoint _ _ hmono hstop hsrc
          (Or.inl (t.offset_mono (by omega)))

theorem tables_resolved :
    tables t = .ok ((List.range (t.layers - 1)).map (boundaryAt t),
      layerRange t (t.layers - 1), flat t (t.layers - 1)) := by
  have hpos := hv.layers_pos
  have hlast : t.layerRanges.getLast? = some (layerRange t (t.layers - 1)) := by
    rw [layerRanges_eq, List.getLast?_eq_getElem?, List.getElem?_map, List.length_map,
      List.length_range, List.getElem?_range (by omega)]
    rfl
  rw [tables, boundaries_ok hv hr]
  simp only [hlast]
  rfl

theorem slice_flat {k : ℕ} (hk : k < t.layers) :
    slice (flat t (t.layers - 1)) (layerRange t k) = row t k :=
  (flat_spec hv hr (by have := hv.layers_pos; omega)).2 k (by omega)

theorem predecessor_eq {k j : ℕ} (hk : k + 1 < t.layers) (hj : j < t.width (k + 1)) :
    predecessor (boundaryAt t k) (flat t (t.layers - 1)) j = some (pred t k j) := by
  have hnext : (boundaryAt t k).next.len = t.width (k + 1) := by
    rw [boundaryAt, Range.len_mk, t.offset_succ (k + 1), Nat.add_sub_cancel_left]
  have hrow : slice (flat t (t.layers - 1)) (boundaryAt t k).cur = row t k :=
    slice_flat hv hr (by omega)
  have hweights : (boundaryAt t k).weights = t.weights k := rfl
  have hsome : lexMin (List.zipWith saturatingAdd (row t k)
      (stepBy (t.width (k + 1)) ((t.weights k).drop j))).zipIdx ≠ none := by
    intro hnone
    have := congrArg List.length (lexMin_eq_none.mp hnone)
    rw [offers_eq hv hr hk hj] at this
    have hpos := hv.width_pos_of_lt (show k < t.layers by omega)
    simp at this
    omega
  obtain ⟨p, hp⟩ := Option.ne_none_iff_exists'.mp hsome
  rw [predecessor, hnext, hrow, hweights, pred, hp]
  rfl

/-! ### The backtrack -/

/-- Walking the boundaries down from layer `n` reads the path back. -/
theorem tailToHead_eq {n : ℕ} (hn : n < t.layers) : ∀ {j : ℕ}, j < t.width n →
    (tailToHead (flat t (t.layers - 1)) ((List.range n).map (boundaryAt t)).reverse j).reverse
        ++ [j]
      = (List.range (n + 1)).map (back (pred t) n j) := by
  induction n with
  | zero => intro j _; rfl
  | succ n ih =>
    intro j hj
    have hpred := (pred_spec hv hr hn hj).1
    have hstep : (List.range (n + 1)).map (back (pred t) n (pred t n j))
        = (List.range (n + 1)).map (back (pred t) (n + 1) j) :=
      List.map_congr_left fun k hk =>
        (back_succ_of_le (pred t) j (Nat.lt_succ_iff.mp (List.mem_range.mp hk))).symm
    rw [List.range_succ, List.map_append, List.map_singleton, List.reverse_append,
      List.reverse_singleton, List.singleton_append, tailToHead, predecessor_eq hv hr hn hj,
      List.reverse_cons, ih (by omega) hpred, hstep, List.range_succ (n := n + 1), List.map_append,
      List.map_singleton, back_self]

/-- Some final node is picked. -/
theorem exists_final : ∃ f, IsFinal t f ∧ lexMin (row t (t.layers - 1)).zipIdx
    = some (cost t (t.layers - 1) f, f) := by
  have hpos := hv.layers_pos
  have hlen := length_row hv hr (show t.layers - 1 < t.layers by omega)
  have hwidth := hv.width_pos_of_lt (show t.layers - 1 < t.layers by omega)
  have hget : ∀ j < t.width (t.layers - 1),
      (row t (t.layers - 1)).getD j 0 = cost t (t.layers - 1) j := by
    intro j hj
    rw [cost, List.getD_eq_getElem _ _ (by rwa [hlen]), List.getD_eq_getElem _ _ (by rwa [hlen])]
  cases hmin : lexMin (row t (t.layers - 1)).zipIdx with
  | none =>
    have := congrArg List.length (lexMin_eq_none.mp hmin)
    simp [hlen] at this
    omega
  | some p =>
    obtain ⟨c, f⟩ := p
    obtain ⟨hf, hc, hle⟩ := lexMin_zipIdx hmin
    rw [hlen] at hf hle
    rw [hget f hf] at hc
    subst hc
    refine ⟨f, ⟨hf, fun j hj => ?_, fun j hj => ?_⟩, rfl⟩
    · rw [← hget j hj]
      exact (hle j hj).1
    · rw [← hget j hj]
      exact (hle j hj).2

/-- **What a solve of a fully resolved trellis returns.** -/
theorem solve_resolved : ∃ f, IsFinal t f ∧ solve t =
    if infW ≤ cost t (t.layers - 1) f then .error .unreachable
    else .ok ⟨route t f, cost t (t.layers - 1) f⟩ := by
  have hpos := hv.layers_pos
  obtain ⟨f, hf, hmin⟩ := exists_final hv hr
  refine ⟨f, hf, ?_⟩
  have hroute := tailToHead_eq hv hr (show t.layers - 1 < t.layers by omega) hf.lt
  rw [Nat.sub_add_cancel hpos] at hroute
  rw [solve, tables_resolved hv hr]
  simp only
  rw [backtrack, slice_flat hv hr (by omega), hmin]
  simp only
  rw [hroute, route]

end Resolved

/-! ### The three outcomes -/

section Outcomes

variable {t : Trellis} (hv : t.Valid)
include hv

theorem solve_notResolved {l : ℕ} (h : t.firstPending = some l) :
    solve t = .error (.notResolved l) := by
  rw [solve, tables, boundaries_error hv h]

/-- A solve names an unresolved boundary exactly when it is the first pending one. -/
theorem solve_notResolved_iff {l : ℕ} :
    solve t = .error (.notResolved l) ↔ t.firstPending = some l := by
  constructor
  · intro h
    cases hpend : t.firstPending with
    | none =>
      obtain ⟨f, -, hf⟩ := solve_resolved hv (t.firstPending_eq_none_iff.mp hpend)
      rw [hf] at h
      split_ifs at h
      cases h
    | some l' =>
      rw [solve_notResolved hv hpend] at h
      cases h
      rfl
  · exact solve_notResolved hv

theorem fullyResolved_of_solve {p : Path} (h : solve t = .ok p) : t.fullyResolved = true := by
  cases hpend : t.firstPending with
  | none => exact t.firstPending_eq_none_iff.mp hpend
  | some l =>
    rw [solve_notResolved hv hpend] at h
    cases h

/-- A solve succeeds with the path read back from the best final node. -/
theorem solve_ok {p : Path} (h : solve t = .ok p) : t.fullyResolved = true ∧
    ∃ f, t.graph.IsBest infW (cost t) (t.layers - 1) f ∧
      p = ⟨route t f, cost t (t.layers - 1) f⟩ := by
  have hr := fullyResolved_of_solve hv h
  obtain ⟨f, hf, hsolve⟩ := solve_resolved hv hr
  rw [hsolve] at h
  split_ifs at h with hdead
  cases h
  exact ⟨hr, f, ⟨hf.lt, by omega, hf.le, hf.first⟩, rfl⟩

/-- A solve is unreachable exactly when every final node is dead. -/
theorem solve_unreachable_iff :
    solve t = .error .unreachable ↔ t.fullyResolved = true ∧
      ∀ j < t.width (t.layers - 1), infW ≤ cost t (t.layers - 1) j := by
  constructor
  · intro h
    cases hpend : t.firstPending with
    | none =>
      have hr := t.firstPending_eq_none_iff.mp hpend
      obtain ⟨f, hf, hsolve⟩ := solve_resolved hv hr
      rw [hsolve] at h
      split_ifs at h with hdead
      exact ⟨hr, fun j hj => hdead.trans (hf.le j hj)⟩
    | some l =>
      rw [solve_notResolved hv hpend] at h
      cases h
  · rintro ⟨hr, hdead⟩
    obtain ⟨f, hf, hsolve⟩ := solve_resolved hv hr
    rw [hsolve, if_pos (hdead f hf.lt)]

end Outcomes

end ViterbiSolver

/-! ### The cost of a node path -/

namespace Trellis

/-- One in-range node of every layer. -/
def IsNodePath (t : Trellis) (nodes : List ℕ) : Prop := List.Forall₂ (· < ·) nodes t.widths

instance (t : Trellis) (nodes : List ℕ) : Decidable (t.IsNodePath nodes) :=
  inferInstanceAs (Decidable (List.Forall₂ (· < ·) nodes t.widths))

/-- The node a list of nodes names at each layer. -/
def nodeAt (nodes : List ℕ) (k : ℕ) : ℕ := nodes.getD k 0

theorem IsNodePath.length_eq {t : Trellis} {nodes : List ℕ} (h : t.IsNodePath nodes) :
    nodes.length = t.layers :=
  List.Forall₂.length_eq h

/-- A node path is a path of the graph. -/
theorem isNodePath_iff {t : Trellis} {nodes : List ℕ} (hpos : 0 < t.layers) :
    t.IsNodePath nodes ↔
      nodes.length = t.layers ∧ t.graph.IsPath (t.layers - 1) (nodeAt nodes) := by
  rw [IsNodePath, List.forall₂_iff_get]
  refine and_congr_right fun hlen => ?_
  have hget : ∀ k, ∀ h : k < nodes.length, nodeAt nodes k = nodes.get ⟨k, h⟩ := fun k h =>
    List.getD_eq_getElem _ _ h
  constructor
  · intro h k hk
    have hk' : k < t.layers := by omega
    rw [hget k (hlen.trans_gt hk'), graph_width, t.width_eq_get hk']
    exact h k _ hk'
  · intro h k hk hk'
    rw [← hget k hk, ← t.width_eq_get hk']
    exact h k (by unfold layers; omega)

theorem IsNodePath.nodeAt_lt {t : Trellis} {nodes : List ℕ} (h : t.IsNodePath nodes) {k : ℕ}
    (hk : k < t.layers) : nodeAt nodes k < t.width k :=
  ((isNodePath_iff (by omega)).mp h).2 k (by omega)

/-- A list of nodes read as a function and back. -/
theorem map_nodeAt (nodes : List ℕ) : (List.range nodes.length).map (nodeAt nodes) = nodes := by
  apply List.ext_getElem
  · simp
  · intro k h1 h2
    rw [List.getElem_map, List.getElem_range]
    exact List.getD_eq_getElem _ _ h2

theorem nodeAt_map (p : ℕ → ℕ) {n k : ℕ} (hk : k < n) : nodeAt ((List.range n).map p) k = p k := by
  rw [nodeAt, List.getD_eq_getElem _ _ (by simpa using hk)]
  simp

/-- A path of the graph, written as a list, is a node path. -/
theorem isNodePath_map {t : Trellis} (hpos : 0 < t.layers) {p : ℕ → ℕ}
    (hp : t.graph.IsPath (t.layers - 1) p) : t.IsNodePath ((List.range t.layers).map p) := by
  refine (isNodePath_iff hpos).mpr ⟨by simp, fun k hk => ?_⟩
  rw [nodeAt_map p (by omega)]
  exact hp k hk

theorem hops_eq (p : ℕ → ℕ) (n : ℕ) :
    (((List.range (n + 1)).map p).zip ((List.range (n + 1)).map p).tail).zipIdx
      = (List.range n).map fun k => ((p k, p (k + 1)), k) := by
  apply List.ext_getElem
  · simp
  · intro k h1 h2
    simp

/-- `pathCost` is the graph's cost, saturated. -/
theorem pathCost_map {t : Trellis} (hv : t.Valid) (p : ℕ → ℕ) :
    t.pathCost ((List.range t.layers).map p) = min (t.graph.cost p (t.layers - 1)) u32Max := by
  have hpos := hv.layers_pos
  have hnode : ∀ k < t.layers, ∀ j, (t.nodeWeight k j).getD 0 = t.graph.node k j := by
    intro k hk j
    rw [nodeWeight, t.nodeWeights_eq hk, graph_node, List.getD_eq_getElem?_getD]
    rfl
  obtain ⟨n, hn⟩ : ∃ n, t.layers = n + 1 := ⟨t.layers - 1, by omega⟩
  have hhead : ((List.range (n + 1)).map p).headD 0 = p 0 := by
    simp [List.range_succ_eq_map]
  rw [pathCost, hn, hops_eq, hhead, Nat.add_sub_cancel]
  simp only [hnode 0 hpos]
  -- by induction on how many boundaries have been paid
  suffices hpaid : ∀ m ≤ n, ((List.range m).map fun k => ((p k, p (k + 1)), k)).foldl
      (fun cost hop => saturatingAdd (saturatingAdd cost (t.edgeWeight hop.2 hop.1.1 hop.1.2))
        ((t.nodeWeight (hop.2 + 1) hop.1.2).getD 0)) (t.graph.node 0 (p 0))
        = min (t.graph.cost p m) u32Max from hpaid n le_rfl
  intro m
  induction m with
  | zero =>
    intro _
    have hle := hv.nodeRow_getD_le 0 (p 0)
    have hmax : maxWeight ≤ u32Max := by decide
    exact (Nat.min_eq_left (hle.trans hmax)).symm
  | succ m ih =>
    intro hm
    rw [List.range_succ, List.map_append, List.foldl_append, ih (by omega)]
    simp only [List.map_cons, List.map_nil, List.foldl_cons, List.foldl_nil,
      hnode (m + 1) (by omega), Layered.Graph.cost, saturatingAdd, graph_edge]
    omega

theorem pathCost_eq {t : Trellis} (hv : t.Valid) {nodes : List ℕ}
    (hnodes : t.IsNodePath nodes) :
    t.pathCost nodes = min (t.graph.cost (nodeAt nodes) (t.layers - 1)) u32Max := by
  rw [← pathCost_map hv, ← hnodes.length_eq, map_nodeAt]

end Trellis

end Routers
