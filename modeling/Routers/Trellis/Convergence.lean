import Routers.Trellis.Conformance
import Routers.Trellis.Window

/-!
# The convergence point

The sweep walks the live final nodes backwards until a single node is left, and so
finds the latest layer at which the optimal paths to all of them agree.  Appending
layers leaves the costs and predecessors of the layers that were there, and every
path that is live later passes a node that is live now; so what has fused stays
fused.

## Main definitions

* `Trellis.Preferred` — the order in which node paths are preferred.
* `Trellis.IsOptimalTo` — the optimal path ending in a given final node.
* `Trellis.FusesAt` — all optimal paths pass through one node.
* `ViterbiSolver.FusedAt` — the paths read back from the live final nodes agree.
* `Latest` — the answer of a search from the top down.

## Main results

* `Trellis.isOptimalTo_iff` — the path read back is the optimal one.
* `ViterbiSolver.convergence_ok_iff` — what the convergence query answers.
* `convergence_frontier` — **convergence is a stable, monotone frontier.**

## References

`src/libs/routers_trellis/src/solver/viterbi.rs`.
-/

namespace Routers

open Layered (back back_self back_succ_of_le back_back RevLex Agree)

/-! ### Optimal paths to a final node -/

namespace Trellis

open ViterbiSolver

/-- `nodes` is preferred to `other`: it is cheaper, or costs the same and has the
lower node at the last layer where the two differ. -/
def Preferred (t : Trellis) (nodes other : List ℕ) : Prop :=
  t.pathCost nodes < t.pathCost other ∨
    t.pathCost nodes = t.pathCost other ∧
      RevLex (t.layers - 1) (nodeAt nodes) (nodeAt other)

theorem Preferred.asymm {t : Trellis} {nodes other : List ℕ} (h : t.Preferred nodes other) :
    ¬ t.Preferred other nodes := by
  unfold Preferred at *
  rintro (h' | ⟨heq', hrev'⟩)
  · rcases h with h | ⟨heq, -⟩ <;> omega
  · rcases h with h | ⟨-, hrev⟩
    · omega
    · exact hrev.asymm hrev'

/-- `nodes` is the optimal path among those ending in node `j` of the last layer: it
stays below `infW` and is preferred to every other one. -/
structure IsOptimalTo (t : Trellis) (j : ℕ) (nodes : List ℕ) : Prop where
  isNodePath : t.IsNodePath nodes
  ends : nodeAt nodes (t.layers - 1) = j
  live : t.pathCost nodes < infW
  first : ∀ other, t.IsNodePath other → nodeAt other (t.layers - 1) = j →
    nodes = other ∨ t.Preferred nodes other

/-- Node paths that agree at every layer are the same list. -/
theorem IsNodePath.ext {t : Trellis} {nodes other : List ℕ} (h : t.IsNodePath nodes)
    (h' : t.IsNodePath other) (hpos : 0 < t.layers)
    (hag : Agree (t.layers - 1) (nodeAt nodes) (nodeAt other)) : nodes = other := by
  rw [← map_nodeAt nodes, ← map_nodeAt other, h.length_eq, h'.length_eq]
  refine List.map_congr_left fun k hk => hag k ?_
  have := List.mem_range.mp hk
  omega

theorem IsOptimalTo.unique {t : Trellis} {j : ℕ} {nodes other : List ℕ}
    (h : t.IsOptimalTo j nodes) (h' : t.IsOptimalTo j other) : nodes = other := by
  rcases h.first other h'.isNodePath h'.ends with heq | hpref
  · exact heq
  · rcases h'.first nodes h.isNodePath h.ends with heq' | hpref'
    · exact heq'.symm
    · exact absurd hpref' hpref.asymm

section Resolved

variable {t : Trellis} (hv : t.Valid) (hr : t.fullyResolved = true)
include hv hr

/-- The path read back from a live final node is the optimal one ending there. -/
theorem isOptimalTo_route {j : ℕ} (hj : j < t.width (t.layers - 1))
    (hlive : cost t (t.layers - 1) j < infW) : t.IsOptimalTo j (route t j) := by
  have hpos := hv.layers_pos
  have hinf := infW_lt_u32Max
  have T := isTable hv hr
  have hback := T.isPath_back le_rfl hj hlive
  have hcost : t.pathCost (route t j) = cost t (t.layers - 1) j := by
    rw [route, pathCost_map hv, T.cost_back le_rfl hj hlive]
    omega
  have hnode : ∀ k ≤ t.layers - 1, nodeAt (route t j) k = back (pred t) (t.layers - 1) j k :=
    fun k hk => nodeAt_map _ (by omega)
  have hpath := isNodePath_map hpos hback
  refine ⟨hpath, ?_, by rw [hcost]; exact hlive, fun other hother hends => ?_⟩
  · rw [hnode _ le_rfl, back_self]
  have hgraph := ((isNodePath_iff hpos).mp hother).2
  rw [Preferred, hcost, pathCost_eq hv hother]
  rcases lt_or_ge (cost t (t.layers - 1) j) (t.graph.cost (nodeAt other) (t.layers - 1))
    with hlt | hle
  · exact Or.inr (Or.inl (by omega))
  · have hge := T.le_cost le_rfl hgraph (hle.trans_lt hlive)
    rw [hends] at hge
    rcases T.back_first le_rfl hj hlive hgraph hends hle with hag | ⟨m, hm, hlt, heq⟩
    · refine Or.inl (hpath.ext hother hpos fun k hk => ?_)
      rw [← hag k hk]
      exact hnode k hk
    · refine Or.inr (Or.inr ⟨by omega, m, hm, ?_, fun k hk hkn => ?_⟩)
      · rw [hnode m hm]
        exact hlt
      · rw [hnode k hkn]
        exact heq k hk hkn

/-- A final node with a path below `infW` is live in the table. -/
theorem cost_lt_of_isNodePath {nodes : List ℕ} (hnodes : t.IsNodePath nodes)
    (hcost : t.pathCost nodes < infW) :
    nodeAt nodes (t.layers - 1) < t.width (t.layers - 1) ∧
      cost t (t.layers - 1) (nodeAt nodes (t.layers - 1)) < infW := by
  have hgraph := ((isNodePath_iff hv.layers_pos).mp hnodes).2
  have hlt := (pathCost_lt_iff hv hnodes).mp hcost
  exact ⟨hgraph _ le_rfl, ((isTable hv hr).le_cost le_rfl hgraph hlt).trans_lt hlt⟩

/-- **The path read back is the optimal one**, and there is one for each live node. -/
theorem isOptimalTo_iff {j : ℕ} {nodes : List ℕ} : t.IsOptimalTo j nodes ↔
    j < t.width (t.layers - 1) ∧ cost t (t.layers - 1) j < infW ∧ nodes = route t j := by
  constructor
  · intro h
    obtain ⟨hj, hlive⟩ := cost_lt_of_isNodePath hv hr h.isNodePath h.live
    rw [h.ends] at hj hlive
    exact ⟨hj, hlive, h.unique (isOptimalTo_route hv hr hj hlive)⟩
  · rintro ⟨hj, hlive, rfl⟩
    exact isOptimalTo_route hv hr hj hlive

end Resolved

end Trellis

/-! ### The sweep -/

/-- The answer of a search for `P` below `n` from the top down. -/
def Latest (P : ℕ → Prop) (n : ℕ) : Option ℕ → Prop
  | some L => L < n ∧ P L ∧ ∀ k, L < k → k < n → ¬ P k
  | none => ∀ k < n, ¬ P k

theorem Latest.congr {P Q : ℕ → Prop} {n : ℕ} (h : ∀ k < n, P k ↔ Q k) :
    ∀ {o : Option ℕ}, Latest P n o → Latest Q n o := by
  intro o
  cases o with
  | none => intro hP k hk hQ; exact hP k hk ((h k hk).mpr hQ)
  | some L =>
    rintro ⟨hL, hPL, hmax⟩
    exact ⟨hL, (h L hL).mp hPL, fun k hk hkn hQ => hmax k hk hkn ((h k hkn).mpr hQ)⟩

/-- A search that fails at the top goes on below. -/
theorem Latest.succ {P : ℕ → Prop} {n : ℕ} (hn : ¬ P n) :
    ∀ {o : Option ℕ}, Latest P n o → Latest P (n + 1) o := by
  intro o
  cases o with
  | none =>
    intro hP k hk
    rcases Nat.lt_or_ge k n with hk' | hk'
    · exact hP k hk'
    · obtain rfl : k = n := by omega
      exact hn
  | some L =>
    rintro ⟨hL, hPL, hmax⟩
    refine ⟨by omega, hPL, fun k hk hkn => ?_⟩
    rcases Nat.lt_or_ge k n with hk' | hk'
    · exact hmax k hk hk'
    · obtain rfl : k = n := by omega
      exact hn

theorem Latest.unique {P : ℕ → Prop} {n : ℕ} :
    ∀ {o o' : Option ℕ}, Latest P n o → Latest P n o' → o = o' := by
  intro o o' h h'
  cases o with
  | none =>
    cases o' with
    | none => rfl
    | some L' => exact absurd h'.2.1 (h L' h'.1)
  | some L =>
    cases o' with
    | none => exact absurd h.2.1 (h' L h.1)
    | some L' =>
      rcases lt_trichotomy L L' with hlt | rfl | hgt
      · exact absurd h'.2.1 (h.2.2 L' hlt h'.1)
      · rfl
      · exact absurd h.2.1 (h'.2.2 L hgt h.1)

/-- A list without repetitions is a single element when all its elements are. -/
theorem length_eq_one_iff {l : List ℕ} (hnodup : l.Nodup) (hne : l ≠ []) :
    l.length = 1 ↔ ∃ c, ∀ x ∈ l, x = c := by
  constructor
  · intro h
    obtain ⟨c, rfl⟩ := List.length_eq_one_iff.mp h
    exact ⟨c, fun x hx => List.mem_singleton.mp hx⟩
  · rintro ⟨c, hc⟩
    cases l with
    | nil => exact absurd rfl hne
    | cons a l =>
      cases l with
      | nil => rfl
      | cons b l =>
        have hab : a = b := (hc a (by simp)).trans (hc b (by simp)).symm
        subst hab
        simp at hnodup

namespace ViterbiSolver

open Trellis

/-- The paths read back from the live final nodes agree at layer `k`. -/
def FusedAt (t : Trellis) (k : ℕ) : Prop :=
  ∃ c, t.graph.Fused infW (cost t) (pred t) (t.layers - 1) k c

/-- The live final nodes, in order. -/
def liveNodes (t : Trellis) : List ℕ :=
  ((row t (t.layers - 1)).zipIdx.filter fun p => decide (p.1 < infW)).map Prod.snd

theorem nodup_liveNodes (t : Trellis) : (liveNodes t).Nodup := by
  have hsub : (liveNodes t).Sublist ((row t (t.layers - 1)).zipIdx.map Prod.snd) :=
    List.filter_sublist.map _
  apply hsub.nodup
  rw [List.zipIdx_map_snd]
  exact List.nodup_range'

section Resolved

variable {t : Trellis} (hv : t.Valid) (hr : t.fullyResolved = true)
include hv hr

theorem mem_liveNodes {j : ℕ} :
    j ∈ liveNodes t ↔ j < t.width (t.layers - 1) ∧ cost t (t.layers - 1) j < infW := by
  have hpos := hv.layers_pos
  have hlen := length_row hv hr (show t.layers - 1 < t.layers by omega)
  simp only [liveNodes, List.mem_map, List.mem_filter, decide_eq_true_eq]
  constructor
  · rintro ⟨⟨c, i⟩, ⟨hmem, hlive⟩, rfl⟩
    rw [List.mem_zipIdx_iff_getElem?] at hmem
    obtain ⟨hi, hget⟩ := List.getElem?_eq_some_iff.mp hmem
    refine ⟨hlen ▸ hi, ?_⟩
    rw [cost, List.getD_eq_getElem _ _ hi, hget]
    exact hlive
  · rintro ⟨hj, hlive⟩
    have hj' : j < (row t (t.layers - 1)).length := by rwa [hlen]
    refine ⟨(cost t (t.layers - 1) j, j), ⟨?_, hlive⟩, rfl⟩
    rw [List.mem_zipIdx_iff_getElem?, cost, List.getD_eq_getElem _ _ hj']
    exact List.getElem?_eq_getElem hj'

/-- **The sweep finds the latest layer where the paths read back from a frontier
agree**: each step moves the frontier to its predecessors. -/
theorem sweep_spec {n : ℕ} (hn : n < t.layers) : ∀ {frontier : List ℕ}, frontier ≠ [] →
    (∀ j ∈ frontier, j < t.width n) →
    Latest (fun k => ∃ c, ∀ j ∈ frontier, back (pred t) n j k = c) n
      (sweep (flat t (t.layers - 1)) ((List.range n).map (boundaryAt t)).reverse frontier) := by
  induction n with
  | zero => intro frontier _ _ k hk; omega
  | succ n ih =>
    intro frontier hne hlt
    set moved := ((frontier.filterMap fun node =>
      predecessor (boundaryAt t n) (flat t (t.layers - 1)) node).insertionSort (· ≤ ·)).dedup
      with hmoved
    have hmem : ∀ x, x ∈ moved ↔ ∃ j ∈ frontier, pred t n j = x := by
      intro x
      rw [hmoved, List.mem_dedup, List.mem_insertionSort, List.mem_filterMap]
      refine exists_congr fun j => and_congr_right fun hj => ?_
      rw [predecessor_eq hv hr hn (hlt j hj), Option.some.injEq]
    have hne' : moved ≠ [] := by
      obtain ⟨j, hj⟩ := List.exists_mem_of_ne_nil _ hne
      exact List.ne_nil_of_mem ((hmem _).mpr ⟨j, hj, rfl⟩)
    have hlt' : ∀ x ∈ moved, x < t.width n := by
      intro x hx
      obtain ⟨j, hj, rfl⟩ := (hmem x).mp hx
      exact (pred_spec hv hr hn (hlt j hj)).1
    have hnodup : moved.Nodup := List.nodup_dedup _
    -- below, the paths read back from the frontier are those read back from `moved`
    have hbelow : ∀ k ≤ n, (∃ c, ∀ x ∈ moved, back (pred t) n x k = c) ↔
        ∃ c, ∀ j ∈ frontier, back (pred t) (n + 1) j k = c := by
      intro k hk
      refine exists_congr fun c => ⟨fun h j hj => ?_, fun h x hx => ?_⟩
      · rw [back_succ_of_le _ _ hk]
        exact h _ ((hmem _).mpr ⟨j, hj, rfl⟩)
      · obtain ⟨j, hj, rfl⟩ := (hmem x).mp hx
        rw [← back_succ_of_le _ _ hk]
        exact h j hj
    rw [List.range_succ, List.map_append, List.map_singleton, List.reverse_append,
      List.reverse_singleton, List.singleton_append, sweep]
    simp only [← hmoved]
    have hone : moved.length = 1 ↔ ∃ c, ∀ j ∈ frontier, back (pred t) (n + 1) j n = c := by
      rw [length_eq_one_iff hnodup hne', ← hbelow n le_rfl]
      simp only [back_self]
    split_ifs with hlen
    · exact ⟨Nat.lt_succ_self n, hone.mp hlen, fun k hk hkn =>
        absurd hk (not_lt.mpr (Nat.lt_succ_iff.mp hkn))⟩
    · refine Latest.succ (mt hone.mpr hlen) ?_
      exact (ih (by omega) hne' hlt').congr fun k hk => hbelow k hk.le

/-- The convergence query finds the latest layer at which the live paths agree. -/
theorem convergedLayer_spec (hlive : liveNodes t ≠ []) :
    Latest (FusedAt t) t.layers (convergedLayer (layerRange t (t.layers - 1))
      ((List.range (t.layers - 1)).map (boundaryAt t)) (flat t (t.layers - 1))) := by
  have hpos := hv.layers_pos
  have hmem : ∀ j, j ∈ liveNodes t ↔ _ := fun j => mem_liveNodes hv hr
  have hfused : ∀ k, (∃ c, ∀ j ∈ liveNodes t, back (pred t) (t.layers - 1) j k = c) ↔
      FusedAt t k := by
    intro k
    refine exists_congr fun c => ⟨fun h j hj hl => ?_, fun h j hj => ?_⟩
    · exact h j ((hmem j).mpr ⟨hj, hl⟩)
    · exact h j ((hmem j).mp hj).1 ((hmem j).mp hj).2
  have hone : (liveNodes t).length = 1 ↔ FusedAt t (t.layers - 1) := by
    rw [length_eq_one_iff (nodup_liveNodes t) hlive, ← hfused]
    simp only [back_self]
  have hsweep := sweep_spec hv hr (show t.layers - 1 < t.layers by omega) hlive
    fun j hj => ((hmem j).mp hj).1
  rw [convergedLayer, slice_flat hv hr (by omega)]
  show Latest (FusedAt t) t.layers (if (liveNodes t).length = 1 then _ else
    sweep (flat t (t.layers - 1)) _ (liveNodes t))
  split_ifs with hlen
  · rw [List.length_map, List.length_range]
    exact ⟨by omega, hone.mp hlen, fun k hk hkn => by omega⟩
  · have hlast := Latest.succ (mt ?_ hlen) (hsweep.congr fun k _ => hfused k)
    · rwa [Nat.sub_add_cancel hpos] at hlast
    · exact hone.mpr

theorem convergence_resolved : convergence t =
    if liveNodes t = [] then .error .unreachable
    else .ok (convergedLayer (layerRange t (t.layers - 1))
      ((List.range (t.layers - 1)).map (boundaryAt t)) (flat t (t.layers - 1))) := by
  have hpos := hv.layers_pos
  have hlen := length_row hv hr (show t.layers - 1 < t.layers by omega)
  have hall : ((row t (t.layers - 1)).all fun cost => decide (infW ≤ cost)) = true ↔
      liveNodes t = [] := by
    rw [List.eq_nil_iff_forall_not_mem, List.all_eq_true]
    simp only [mem_liveNodes hv hr, decide_eq_true_eq]
    constructor
    · rintro h j ⟨hj, hlive⟩
      have hj' : j < (row t (t.layers - 1)).length := by rwa [hlen]
      have hdead := h _ (List.getElem_mem hj')
      rw [cost, List.getD_eq_getElem _ _ hj'] at hlive
      omega
    · intro h c hc
      obtain ⟨j, hj, rfl⟩ := List.getElem_of_mem hc
      by_contra hlive
      refine h j ⟨hlen ▸ hj, ?_⟩
      rw [cost, List.getD_eq_getElem _ _ hj]
      omega
  rw [convergence, tables_resolved hv hr]
  simp only
  rw [slice_flat hv hr (by omega)]
  by_cases hlive : liveNodes t = []
  · rw [if_pos hlive, if_pos (hall.mpr hlive)]
  · rw [if_neg hlive, if_neg (mt hall.mp hlive)]

end Resolved

/-! ### What the query answers -/

section Answers

variable {t : Trellis} (hv : t.Valid)
include hv

/-- The query errors exactly where a solve errors. -/
theorem convergence_error_iff {e : SolveError} :
    convergence t = .error e ↔ solve t = .error e := by
  cases hfirst : t.firstPending with
  | some l =>
    have htables : tables t = .error (.notResolved l) := by
      rw [tables, boundaries_error hv hfirst]
    simp only [convergence, solve, htables, Except.error.injEq]
  | none =>
    have hr := t.firstPending_eq_none_iff.mp hfirst
    obtain ⟨f, hf, hsolve⟩ := solve_resolved hv hr
    have hdead : liveNodes t = [] ↔ infW ≤ cost t (t.layers - 1) f := by
      rw [List.eq_nil_iff_forall_not_mem]
      simp only [mem_liveNodes hv hr]
      constructor
      · intro h
        by_contra hlive
        exact h f ⟨hf.lt, not_le.mp hlive⟩
      · rintro h j ⟨hj, hlive⟩
        exact (h.trans (hf.le j hj)).not_gt hlive
    rw [convergence_resolved hv hr, hsolve]
    by_cases hlive : liveNodes t = []
    · rw [if_pos hlive, if_pos (hdead.mp hlive)]
      simp
    · rw [if_neg hlive, if_neg (mt hdead.mpr hlive)]
      simp

/-- **What the convergence query answers.** -/
theorem convergence_ok_iff {o : Option ℕ} : convergence t = .ok o ↔
    t.fullyResolved = true ∧ liveNodes t ≠ [] ∧ Latest (FusedAt t) t.layers o := by
  cases hfirst : t.firstPending with
  | some l =>
    rw [convergence, tables, boundaries_error hv hfirst]
    refine iff_of_false (by simp) fun h => ?_
    rw [t.firstPending_eq_none_iff.mpr h.1] at hfirst
    cases hfirst
  | none =>
    have hr := t.firstPending_eq_none_iff.mp hfirst
    rw [convergence_resolved hv hr]
    by_cases hlive : liveNodes t = []
    · rw [if_pos hlive]
      exact iff_of_false (by simp) fun h => h.2.1 hlive
    · rw [if_neg hlive]
      have hspec := convergedLayer_spec hv hr hlive
      constructor
      · intro h
        cases h
        exact ⟨hr, hlive, hspec⟩
      · rintro ⟨-, -, h⟩
        rw [hspec.unique h]

end Answers

/-! ### Growing trellises -/

section Growth

variable {t t' : Trellis} (hv : t.Valid) (hv' : t'.Valid) (hm : Matches 0 t.layers t t')
  (hr' : t'.fullyResolved = true)
include hv hv' hm hr'

/-- What has fused at the last layer there was has fused in the grown trellis. -/
theorem fused_grow {k c : ℕ} (hk : k < t.layers)
    (h : t.graph.Fused infW (cost t) (pred t) (t.layers - 1) k c) :
    t'.graph.Fused infW (cost t') (pred t') (t'.layers - 1) k c := by
  have hpos := hv.layers_pos
  have hle : t.layers ≤ t'.layers := by have := hm.le'; omega
  have hthere : t'.graph.Fused infW (cost t') (pred t') (t.layers - 1) k c := by
    intro j hj hlive
    have hwidth := hm.width_eq hv hv' (show t.layers - 1 < t.layers by omega)
    rw [Nat.zero_add] at hwidth
    rw [graph_width, ← hwidth] at hj
    rw [← hm.cost_eq hv hv' (by omega)] at hlive
    rw [← h j hj hlive]
    exact Layered.back_congr (fun m hm' i => (hm.pred_eq hv hv' (by omega) i).symm) j k
  exact (isTable hv' hr').fused_mono le_rfl (by omega) (by omega) hthere

/-- Below a fused layer the two solves name the same nodes. -/
theorem route_take_eq {L c f f' : ℕ} (hL : L < t.layers)
    (h : t.graph.Fused infW (cost t) (pred t) (t.layers - 1) L c)
    (hf : t.graph.IsBest infW (cost t) (t.layers - 1) f)
    (hf' : t'.graph.IsBest infW (cost t') (t'.layers - 1) f') :
    (route t' f').take (L + 1) = (route t f).take (L + 1) := by
  have hpos := hv.layers_pos
  have hle : t.layers ≤ t'.layers := by have := hm.le'; omega
  have hgrown := fused_grow hv hv' hm hr' hL h f' hf'.lt hf'.live
  have hhere := h f hf.lt hf.live
  rw [route, route, ← List.map_take, ← List.map_take, List.take_range, List.take_range,
    Nat.min_eq_left (by omega), Nat.min_eq_left (by omega)]
  refine List.map_congr_left fun k hk => ?_
  have hkL : k ≤ L := Nat.lt_succ_iff.mp (List.mem_range.mp hk)
  calc back (pred t') (t'.layers - 1) f' k
      = back (pred t') L c k := by rw [back_back _ (by omega) hkL, hgrown]
    _ = back (pred t) L c k :=
        Layered.back_congr (fun m hm' i => (hm.pred_eq hv hv' (by omega) i).symm) c k
    _ = back (pred t) (t.layers - 1) f k := by
        rw [back_back (pred t) (show L ≤ t.layers - 1 by omega) hkL, hhere]

end Growth

end ViterbiSolver

open Trellis ViterbiSolver

/-- The optimal paths to all final nodes pass through node `c` of layer `k`. -/
def Trellis.FusesAt (t : Trellis) (k c : ℕ) : Prop :=
  ∀ j nodes, t.IsOptimalTo j nodes → nodeAt nodes k = c

/-- The live paths agree at a layer exactly when the optimal paths do. -/
theorem fused_iff {t : Trellis} (hv : t.Valid) (hr : t.fullyResolved = true) {k c : ℕ}
    (hk : k < t.layers) :
    t.graph.Fused infW (cost t) (pred t) (t.layers - 1) k c ↔ t.FusesAt k c := by
  constructor
  · intro h j nodes hopt
    obtain ⟨hj, hlive, rfl⟩ := (isOptimalTo_iff hv hr).mp hopt
    rw [route, nodeAt_map _ hk]
    exact h j hj hlive
  · intro h j hj hlive
    rw [← h j _ ((isOptimalTo_iff hv hr).mpr ⟨hj, hlive, rfl⟩), route, nodeAt_map _ hk]

/-- A trellis has a live final node exactly when some node path stays below `infW`. -/
theorem liveNodes_ne_nil_iff {t : Trellis} (hv : t.Valid) (hr : t.fullyResolved = true) :
    liveNodes t ≠ [] ↔ ∃ nodes, t.IsNodePath nodes ∧ t.pathCost nodes < infW := by
  constructor
  · intro h
    obtain ⟨j, hj⟩ := List.exists_mem_of_ne_nil _ h
    have hopt := (isOptimalTo_iff hv hr).mpr
      ⟨((mem_liveNodes hv hr).mp hj).1, ((mem_liveNodes hv hr).mp hj).2, rfl⟩
    exact ⟨_, hopt.isNodePath, hopt.live⟩
  · rintro ⟨nodes, hnodes, hcost⟩
    exact List.ne_nil_of_mem ((mem_liveNodes hv hr).mpr (cost_lt_of_isNodePath hv hr hnodes hcost))

/-- **Convergence is a stable, monotone frontier.**  The query errors exactly where a
solve does; it answers `none` exactly when there are live paths and at no layer do the
optimal ones pass through one node; and once it answers `some L`, every solvable
continuation keeps the chosen nodes through layer `L` and answers at or after it. -/
theorem convergence_frontier {t : Trellis} (h : t.Reachable) :
    (∀ e, convergence t = .error e ↔ ViterbiSolver.solve t = .error e) ∧
    (convergence t = .ok none ↔ t.fullyResolved = true ∧
      (∃ nodes, t.IsNodePath nodes ∧ t.pathCost nodes < infW) ∧
      ∀ k < t.layers, ¬ ∃ c, t.FusesAt k c) ∧
    (∀ L, convergence t = .ok (some L) → L < t.layers ∧ ∃ p, ViterbiSolver.solve t = .ok p ∧
      ∀ ops t' p', appendAll t.layers t ops = some t' → ViterbiSolver.solve t' = .ok p' →
        p'.nodes.take (L + 1) = p.nodes.take (L + 1) ∧
        ∃ L', convergence t' = .ok (some L') ∧ L ≤ L') := by
  have hv := h.valid
  refine ⟨fun e => convergence_error_iff hv, ?_, fun L hL => ?_⟩
  · rw [convergence_ok_iff hv]
    refine and_congr_right fun hr => and_congr (liveNodes_ne_nil_iff hv hr) ?_
    exact forall₂_congr fun k hk => not_congr (exists_congr fun c => fused_iff hv hr hk)
  · obtain ⟨hr, hlive, hlt, ⟨c, hfused⟩, -⟩ := (convergence_ok_iff hv).mp hL
    -- the query succeeded, so the solve does
    cases hsolve : ViterbiSolver.solve t with
    | error e =>
      rw [(convergence_error_iff hv).mpr hsolve] at hL
      cases hL
    | ok p =>
      refine ⟨hlt, p, rfl, fun ops t' p' hops hsolve' => ?_⟩
      have hv' := appendAll_valid hv hops
      have hm := appendAll_matches hv.layers_pos hv le_rfl hops
      obtain ⟨-, f, hf, rfl⟩ := solve_ok hv hsolve
      obtain ⟨hr', f', hf', rfl⟩ := solve_ok hv' hsolve'
      refine ⟨route_take_eq hv hv' hm hr' hlt hfused hf hf', ?_⟩
      have hgrown : FusedAt t' L := ⟨c, fused_grow hv hv' hm hr' hlt hfused⟩
      have hlive' : liveNodes t' ≠ [] :=
        List.ne_nil_of_mem ((mem_liveNodes hv' hr').mpr ⟨hf'.lt, hf'.live⟩)
      have hspec := convergedLayer_spec hv' hr' hlive'
      cases hlayer : convergedLayer (layerRange t' (t'.layers - 1))
          ((List.range (t'.layers - 1)).map (boundaryAt t')) (flat t' (t'.layers - 1)) with
      | none =>
        rw [hlayer] at hspec
        exact absurd hgrown (hspec L (by have := hm.le'; omega))
      | some L' =>
        rw [hlayer] at hspec
        refine ⟨L', (convergence_ok_iff hv').mpr ⟨hr', hlive', hspec⟩, ?_⟩
        by_contra hlt'
        exact hspec.2.2 L (not_le.mp hlt') (by have := hm.le'; omega) hgrown

/-- A trellis whose paths have fused in its only layer of one node. -/
def waist : Trellis := ⟨[2, 1, 2], [0, 0, 0, 0, 0], [.resolved [1, 2], .resolved [5, 5]]⟩

theorem waist_reachable : waist.Reachable := by
  have hnew : Trellis.new [2, 1, 2]
      = .ok ⟨[2, 1, 2], [0, 0, 0, 0, 0], [.pending, .pending]⟩ := rfl
  have hfirst : fillTransition ⟨[2, 1, 2], [0, 0, 0, 0, 0], [.pending, .pending]⟩ 0 [1, 2]
      = (.ok (), ⟨[2, 1, 2], [0, 0, 0, 0, 0], [.resolved [1, 2], .pending]⟩) := rfl
  have hsecond : fillTransition ⟨[2, 1, 2], [0, 0, 0, 0, 0], [.resolved [1, 2], .pending]⟩ 1 [5, 5]
      = (.ok (), waist) := rfl
  exact ((Trellis.Reachable.new hnew).fillTransition hfirst).fillTransition hsecond

/-- The waist converges at its middle layer, and a layer appended behind it keeps the
first two nodes. -/
theorem convergence_frontier_waist : ∃ t' p', ViterbiSolver.solve t' = .ok p' ∧
    appendAll 3 waist [.addLayer 1, .fillTransition 0 [9, 1]] = some t' ∧
    p'.nodes.take 2 = [0, 0] := by
  have hL : convergence waist = .ok (some 1) := by decide
  obtain ⟨-, -, hgrow⟩ := convergence_frontier waist_reachable
  obtain ⟨-, p, hp, hkeep⟩ := hgrow 1 hL
  have hp' : ViterbiSolver.solve waist = .ok ⟨[0, 0, 0], 6⟩ := by decide
  rw [hp'] at hp
  cases hp
  refine ⟨_, ⟨[0, 0, 1, 0], 7⟩, ?_, rfl, ?_⟩
  · decide
  · exact (hkeep [.addLayer 1, .fillTransition 0 [9, 1]] _ ⟨[0, 0, 1, 0], 7⟩ rfl (by decide)).1

end Routers
