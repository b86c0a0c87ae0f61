import Routers.Library.Layered
import Routers.Trellis.Invariant
import Routers.Trellis.Viterbi

/-!
# The cost table of the Viterbi solver

The solver keeps its costs in one flat buffer and recomputes predecessors from it.
This file reads the buffer row by row and shows that rows and predecessors together
are a pruned cost table of the trellis seen as a layered graph, so that everything
known of such tables is known of the solver.

## Main definitions

* `Trellis.graph` — a trellis as a layered graph.
* `ViterbiSolver.row`, `ViterbiSolver.pred` — the rows of the flat table, and the
  predecessors the backtrack recomputes from them.

## Main results

* `ViterbiSolver.boundaries_ok`, `boundaries_error` — the boundaries a solve sees.
* `ViterbiSolver.isTable` — **the rows are a cost table of the graph.**

## References

`src/libs/routers_trellis/src/solver/viterbi.rs`.
-/

namespace Routers

/-! ### Lists -/

theorem mapM_except_ok {α β ε : Type*} {f : α → Except ε β} {g : α → β} :
    ∀ {l : List α}, (∀ x ∈ l, f x = .ok (g x)) → l.mapM f = .ok (l.map g) := by
  intro l
  induction l with
  | nil => intro _; rfl
  | cons x l ih =>
    intro h
    rw [List.mapM_cons, h x List.mem_cons_self, ih fun y hy => h y (List.mem_cons_of_mem x hy)]
    rfl

theorem mapM_except_error {α β ε : Type*} {f : α → Except ε β} {x : α} {e : ε} (b : List α)
    (hx : f x = .error e) :
    ∀ {a : List α}, (∀ y ∈ a, ∃ v, f y = .ok v) → (a ++ x :: b).mapM f = .error e := by
  intro a
  induction a with
  | nil =>
    intro _
    rw [List.nil_append, List.mapM_cons, hx]
    rfl
  | cons y a ih =>
    intro h
    obtain ⟨v, hv⟩ := h y List.mem_cons_self
    have hrest := ih fun z hz => h z (List.mem_cons_of_mem y hz)
    simp only [List.cons_append, List.mapM_cons, hv, hrest, bind, Except.bind]

theorem getElem?_chunksExact {l : List ℕ} {m n i : ℕ} (hn : 0 < n) (hl : l.length = m * n)
    (hi : i < m) : (chunksExact n l)[i]? = some ((l.drop (i * n)).take n) := by
  rw [chunksExact, hl, Nat.mul_div_cancel _ hn, List.getElem?_map, List.getElem?_range hi]
  rfl

theorem length_chunksExact {l : List ℕ} {m n : ℕ} (hn : 0 < n) (hl : l.length = m * n) :
    (chunksExact n l).length = m := by
  simp [chunksExact, hl, hn]

/-- Every `n`-th element of a matrix's tail from column `j` on is column `j`. -/
theorem stepBy_drop {l : List ℕ} {m n j : ℕ} (hl : l.length = m * n) (hj : j < n) :
    stepBy n (l.drop j) = (List.range m).map fun i => l.getD (i * n + j) 0 := by
  have hcount : (m * n - j + n - 1) / n = m := by
    cases m with
    | zero => rw [Nat.div_eq_of_lt]; omega
    | succ m =>
      rw [Nat.succ_mul, show m * n + n - j + n - 1 = (n - 1 + (n - j)) + n * m by
        rw [Nat.mul_comm]; omega, Nat.add_mul_div_left _ _ (by omega)]
      have : (n - 1 + (n - j)) / n = 1 := Nat.div_eq_of_lt_le (by omega) (by omega)
      omega
  rw [stepBy, List.length_drop, hl, hcount]
  refine List.map_congr_left fun i _ => ?_
  simp [List.getD_eq_getElem?_getD, List.getElem?_drop, Nat.add_comm]

theorem lexMin_eq_none {l : List (ℕ × ℕ)} : lexMin l = none ↔ l = [] := by
  cases l with
  | nil => simp [lexMin]
  | cons p ps =>
    simp only [lexMin, reduceCtorEq, iff_false]
    split
    · simp
    · split_ifs <;> simp

theorem lexMin_spec : ∀ {l : List (ℕ × ℕ)} {p : ℕ × ℕ}, lexMin l = some p →
    p ∈ l ∧ ∀ q ∈ l, p.1 < q.1 ∨ p.1 = q.1 ∧ p.2 ≤ q.2 := by
  intro l
  induction l with
  | nil => intro p h; cases h
  | cons a l ih =>
    intro p h
    simp only [lexMin] at h
    split at h
    · next hnone =>
      obtain rfl := lexMin_eq_none.mp hnone
      cases h
      simp
    · next q hq =>
      obtain ⟨hmem, hle⟩ := ih hq
      split_ifs at h with hlt
      · cases h
        refine ⟨List.mem_cons_of_mem a hmem, fun r hr => ?_⟩
        rcases List.mem_cons.mp hr with rfl | hr
        · omega
        · exact hle r hr
      · cases h
        refine ⟨List.mem_cons_self, fun r hr => ?_⟩
        rcases List.mem_cons.mp hr with rfl | hr
        · omega
        · have := hle r hr
          omega

/-- `l.min()` over costs numbered by their position is the first least cost. -/
theorem lexMin_zipIdx {l : List ℕ} {c i : ℕ} (h : lexMin l.zipIdx = some (c, i)) :
    i < l.length ∧ l.getD i 0 = c ∧
      ∀ j < l.length, c ≤ l.getD j 0 ∧ (l.getD j 0 ≤ c → i ≤ j) := by
  obtain ⟨hmem, hle⟩ := lexMin_spec h
  rw [List.mem_zipIdx_iff_getElem?] at hmem
  obtain ⟨hi, hget⟩ := List.getElem?_eq_some_iff.mp hmem
  refine ⟨hi, by rw [List.getD_eq_getElem _ _ hi]; exact hget, fun j hj => ?_⟩
  have hj' := hle (l.getD j 0, j) (by
    rw [List.mem_zipIdx_iff_getElem?, List.getD_eq_getElem _ _ hj]
    exact List.getElem?_eq_getElem hj)
  simp only at hj'
  omega

/-- A relaxation folded over rows acts on each position by itself. -/
theorem getD_foldl_zipWith {β : Type*} (f : β → ℕ → ℕ → ℕ) (rowOf : β → List ℕ) {n j : ℕ}
    (hj : j < n) (d : ℕ) :
    ∀ (ps : List β) (init : List ℕ), init.length = n → (∀ p ∈ ps, (rowOf p).length = n) →
      (ps.foldl (fun next p => List.zipWith (f p) next (rowOf p)) init).length = n ∧
      (ps.foldl (fun next p => List.zipWith (f p) next (rowOf p)) init).getD j d
        = ps.foldl (fun x p => f p x ((rowOf p).getD j d)) (init.getD j d) := by
  intro ps
  induction ps with
  | nil => intro init h _; exact ⟨h, rfl⟩
  | cons p ps ih =>
    intro init h hrows
    have hp : (rowOf p).length = n := hrows p List.mem_cons_self
    have hlen : (List.zipWith (f p) init (rowOf p)).length = n := by simp [h, hp]
    obtain ⟨h1, h2⟩ := ih _ hlen fun q hq => hrows q (List.mem_cons_of_mem p hq)
    refine ⟨h1, ?_⟩
    rw [List.foldl_cons, List.foldl_cons, h2]
    congr 1
    rw [List.getD_eq_getElem _ _ (by rw [hlen]; exact hj), List.getElem_zipWith,
      List.getD_eq_getElem _ _ (by rw [h]; exact hj), List.getD_eq_getElem _ _ (by rw [hp]; exact hj)]

/-- Taking minima as one goes leaves the least of the start and all values met. -/
theorem foldl_min_spec {β : Type*} (f : β → ℕ) :
    ∀ (ps : List β) (a : ℕ),
      ps.foldl (fun x p => min x (f p)) a ≤ a ∧
      (∀ p ∈ ps, ps.foldl (fun x p => min x (f p)) a ≤ f p) ∧
      (ps.foldl (fun x p => min x (f p)) a = a ∨
        ∃ p ∈ ps, ps.foldl (fun x p => min x (f p)) a = f p) := by
  intro ps
  induction ps with
  | nil => intro a; simp
  | cons p ps ih =>
    intro a
    obtain ⟨h1, h2, h3⟩ := ih (min a (f p))
    simp only [List.foldl_cons]
    refine ⟨h1.trans (min_le_left _ _), fun q hq => ?_, ?_⟩
    · rcases List.mem_cons.mp hq with rfl | hq
      · exact h1.trans (min_le_right _ _)
      · exact h2 q hq
    · rcases h3 with h3 | ⟨q, hq, h3⟩
      · rcases min_choice a (f p) with hm | hm
        · exact Or.inl (h3.trans hm)
        · exact Or.inr ⟨p, List.mem_cons_self, h3.trans hm⟩
      · exact Or.inr ⟨q, List.mem_cons_of_mem p hq, h3⟩

/-! ### A trellis as a layered graph -/

namespace Trellis

/-- A trellis as a layered graph. -/
def graph (t : Trellis) : Layered.Graph ℕ where
  width := t.width
  node k j := (t.nodeRow k).getD j 0
  edge := t.edgeWeight

@[simp] theorem graph_width (t : Trellis) : t.graph.width = t.width := rfl

@[simp] theorem graph_node (t : Trellis) (k j : ℕ) :
    t.graph.node k j = (t.nodeRow k).getD j 0 := rfl

@[simp] theorem graph_edge (t : Trellis) : t.graph.edge = t.edgeWeight := rfl

/-- The weights of the transition out of layer `k`. -/
def weights (t : Trellis) (k : ℕ) : List ℕ := (t.layer k).getD []

theorem fullyResolved_iff (t : Trellis) :
    t.fullyResolved = true ↔
      ∀ k < t.transitions.length, ∃ ws, t.transitions[k]? = some (.resolved ws) := by
  rw [fullyResolved, List.all_eq_true]
  constructor
  · intro h k hk
    have hget := List.getElem?_eq_getElem hk
    have := h _ (List.getElem_mem hk)
    cases htr : t.transitions[k] with
    | pending => rw [htr] at this; cases this
    | resolved ws => exact ⟨ws, by rw [hget, htr]⟩
  · intro h tr htr
    obtain ⟨k, hk, rfl⟩ := List.getElem_of_mem htr
    obtain ⟨ws, hws⟩ := h k hk
    rw [List.getElem?_eq_getElem hk] at hws
    rw [Option.some.inj hws]
    rfl

theorem firstPending_eq_none_iff (t : Trellis) :
    t.firstPending = none ↔ t.fullyResolved = true := by
  simp [firstPending, fullyResolved, List.findIdx?_eq_none_iff]

theorem disconnections_eq_nil {t : Trellis} (h : t.fullyResolved = true) :
    t.disconnections = [] := by
  rw [disconnections, List.map_eq_nil_iff, List.filter_eq_nil_iff]
  intro p hp
  have hmem := List.fst_mem_of_mem_zipIdx hp
  rw [fullyResolved, List.all_eq_true] at h
  simp [h _ hmem]

/-- A trellis without gaps is resolved. -/
theorem fullyResolved_of_disconnections {t : Trellis} (h : t.disconnections = []) :
    t.fullyResolved = true := by
  rw [disconnections, List.map_eq_nil_iff, List.filter_eq_nil_iff] at h
  rw [fullyResolved, List.all_eq_true]
  intro transition htransition
  obtain ⟨k, hk⟩ := List.getElem?_of_mem htransition
  have hgap := h (transition, k) (List.mem_zipIdx_iff_getElem?.mpr hk)
  simpa using hgap

/-- What the first pending transition is. -/
theorem firstPending_some {t : Trellis} {l : ℕ} (h : t.firstPending = some l) :
    l < t.transitions.length ∧ t.layer l = none ∧ ∀ k < l, ∃ ws, t.layer k = some ws := by
  rw [firstPending, List.findIdx?_eq_some_iff_getElem] at h
  obtain ⟨hl, hpend, hbelow⟩ := h
  refine ⟨hl, ?_, fun k hk => ?_⟩
  · rw [layer, List.getElem?_eq_getElem hl]
    cases htr : t.transitions[l] with
    | pending => rfl
    | resolved ws => rw [htr] at hpend; cases hpend
  · rw [layer, List.getElem?_eq_getElem (hk.trans hl)]
    cases htr : t.transitions[k] with
    | pending => exact absurd (by rw [htr]; rfl) (hbelow k hk)
    | resolved ws => exact ⟨ws, rfl⟩

/-- The weights of a resolved boundary, row by row. -/
theorem Valid.getElem?_weights {t : Trellis} (hv : t.Valid) {k : ℕ} {weights : List ℕ}
    (hk : t.transitions[k]? = some (Transition.resolved weights)) {i j : ℕ} (hi : i < t.width k)
    (hj : j < t.width (k + 1)) :
    weights[i * t.width (k + 1) + j]? = some (t.edgeWeight k i j) := by
  have hrow : (i + 1) * t.width (k + 1) ≤ t.width k * t.width (k + 1) :=
    Nat.mul_le_mul_right _ hi
  have hindex : i * t.width (k + 1) + j < weights.length := by
    rw [hv.weights_length k weights hk]
    rw [Nat.succ_mul] at hrow
    omega
  rw [edgeWeight, List.getD_eq_getElem?_getD, hk]
  simp only [Option.getD_some, Transition.weights, Option.map_some]
  rw [List.getD_eq_getElem _ _ hindex, List.getElem?_eq_getElem hindex]

/-- A boundary with an edge present is resolved. -/
theorem resolved_of_edgeWeight_lt {t : Trellis} {k i j : ℕ} (h : t.edgeWeight k i j < infW) :
    ∃ weights, t.transitions[k]? = some (Transition.resolved weights) := by
  rw [edgeWeight, List.getD_eq_getElem?_getD] at h
  cases htransition : t.transitions[k]? with
  | none => simp [htransition, Transition.weights] at h
  | some transition =>
    cases transition with
    | pending => simp [htransition, Transition.weights] at h
    | resolved weights => exact ⟨weights, rfl⟩

section Resolved

variable {t : Trellis} (hv : t.Valid) (hr : t.fullyResolved = true)
include hv hr

theorem layer_eq {k : ℕ} (hk : k + 1 < t.layers) : t.layer k = some (t.weights k) := by
  obtain ⟨ws, hws⟩ := t.fullyResolved_iff.mp hr k (by have := hv.transitions_length; omega)
  rw [weights, layer, hws]
  rfl

theorem transitions_eq {k : ℕ} (hk : k + 1 < t.layers) :
    t.transitions[k]? = some (.resolved (t.weights k)) := by
  obtain ⟨ws, hws⟩ := t.fullyResolved_iff.mp hr k (by have := hv.transitions_length; omega)
  rw [weights, layer, hws]
  rfl

theorem length_weights {k : ℕ} (hk : k + 1 < t.layers) :
    (t.weights k).length = t.width k * t.width (k + 1) :=
  hv.weights_length k _ (transitions_eq hv hr hk)

theorem edgeWeight_eq {k : ℕ} (hk : k + 1 < t.layers) (i j : ℕ) :
    t.edgeWeight k i j = (t.weights k).getD (i * t.width (k + 1) + j) 0 := by
  rw [edgeWeight, List.getD_eq_getElem?_getD, transitions_eq hv hr hk]
  rfl

theorem edgeWeight_le {k : ℕ} (hk : k + 1 < t.layers) (i j : ℕ) : t.edgeWeight k i j ≤ infW := by
  rw [edgeWeight_eq hv hr hk, List.getD_eq_getElem?_getD]
  cases hget : (t.weights k)[i * t.width (k + 1) + j]? with
  | none => exact Nat.zero_le _
  | some w =>
    rcases hv.weights_le k _ (transitions_eq hv hr hk) w (List.mem_of_getElem? hget) with h | h
    · exact h.trans maxWeight_lt_infW.le
    · exact h.le

end Resolved

end Trellis

namespace ViterbiSolver

open Trellis

/-! ### The boundaries -/

/-- The boundary between layers `k` and `k + 1`, positioned. -/
def boundaryAt (t : Trellis) (k : ℕ) : Boundary where
  id := k
  cur := ⟨t.offset k, t.offset (k + 1)⟩
  next := ⟨t.offset (k + 1), t.offset (k + 2)⟩
  weights := t.weights k
  nodeWeights := t.nodeRow (k + 1)

theorem layerRanges_eq (t : Trellis) :
    t.layerRanges = (List.range t.layers).map fun k => ⟨t.offset k, t.offset (k + 1)⟩ := by
  apply List.ext_getElem?
  intro k
  rcases Nat.lt_or_ge k t.layers with hk | hk
  · rw [layerRanges, getElem?_rangesFrom 0 t.widths hk, List.getElem?_map, List.getElem?_range hk]
    simp [offset]
  · rw [List.getElem?_eq_none (by rw [layerRanges, length_rangesFrom]; exact hk),
      List.getElem?_eq_none (by simpa using hk)]

/-- The boundaries in order, each with the ranges of the layers it joins. -/
theorem positioned_eq {t : Trellis} (hv : t.Valid) :
    t.boundaries.zip (t.layerRanges.zip (t.layerRanges.drop 1))
      = (List.range (t.layers - 1)).map fun k =>
          (k, (⟨t.offset k, t.offset (k + 1)⟩ : Range), ⟨t.offset (k + 1), t.offset (k + 2)⟩) := by
  have htr := hv.transitions_length
  rw [Trellis.boundaries, layerRanges_eq, show t.transitions.length = t.layers - 1 by omega]
  apply List.ext_getElem
  · simp
  · intro k h1 h2
    simp

theorem boundaries_ok {t : Trellis} (hv : t.Valid) (hr : t.fullyResolved = true) :
    boundaries t = .ok ((List.range (t.layers - 1)).map (boundaryAt t)) := by
  rw [boundaries, positioned_eq hv, mapM_except_ok (g := fun p =>
    { id := p.1, cur := p.2.1, next := p.2.2, weights := t.weights p.1,
      nodeWeights := slice t.nodes p.2.2 })]
  · rw [List.map_map]
    rfl
  · intro p hp
    obtain ⟨k, hk, rfl⟩ := List.mem_map.mp hp
    rw [List.mem_range] at hk
    simp only [layer_eq hv hr (show k + 1 < t.layers by omega)]

theorem boundaries_error {t : Trellis} (hv : t.Valid) {l : ℕ} (h : t.firstPending = some l) :
    boundaries t = .error (.notResolved l) := by
  obtain ⟨hl, hpend, hbelow⟩ := firstPending_some h
  have htr := hv.transitions_length
  obtain ⟨m, hm⟩ := Nat.exists_eq_add_of_lt (show l < t.layers - 1 by omega)
  rw [boundaries, positioned_eq hv, show t.layers - 1 = l + (m + 1) by omega, List.range_add,
    List.map_append, List.range_succ_eq_map, List.map_cons, List.map_cons]
  refine mapM_except_error _ ?_ ?_
  · simp only [Nat.add_zero, hpend]
  · intro p hp
    obtain ⟨k, hk, rfl⟩ := List.mem_map.mp hp
    obtain ⟨ws, hws⟩ := hbelow k (List.mem_range.mp hk)
    exact ⟨_, by simp only [hws]; rfl⟩

/-! ### The rows of the flat table -/

/-- The costs of the nodes of layer `k`. -/
def row (t : Trellis) : ℕ → List ℕ
  | 0 => t.nodeRow 0
  | k + 1 => enter (boundaryAt t k) (row t k)

/-- The cost of node `j` of layer `k`. -/
def cost (t : Trellis) (k j : ℕ) : ℕ := (row t k).getD j infW

/-- The nodes of layer `k` that the best paths into each node of layer `k + 1` leave. -/
def pred (t : Trellis) (k j : ℕ) : ℕ :=
  ((lexMin (List.zipWith saturatingAdd (row t k)
    (stepBy (t.width (k + 1)) ((t.weights k).drop j))).zipIdx).map Prod.snd).getD 0

/-- The part of `enter` before the node weights: the least cost of crossing the
boundary out of layer `k`, for layer costs `c`. -/
def relaxed (t : Trellis) (k : ℕ) (c : List ℕ) : List ℕ :=
  ((c.zip (chunksExact (t.width (k + 1)) (t.weights k))).filter
      fun p => decide (p.1 < infW)).foldl
    (fun next p => List.zipWith (fun n edge => min n (wrappingAdd p.1 edge)) next p.2)
    (List.replicate (t.width (k + 1)) infW)

/-- The least cost of crossing to node `j` of layer `k + 1`, before its own weight. -/
def reached (t : Trellis) (k j : ℕ) : ℕ := (relaxed t k (row t k)).getD j infW

theorem enter_boundaryAt (t : Trellis) (k : ℕ) (c : List ℕ) :
    enter (boundaryAt t k) c = List.zipWith
      (fun n weight => if n < infW then wrappingAdd n weight else n)
      (relaxed t k c) (t.nodeRow (k + 1)) := by
  have hlen : (boundaryAt t k).next.len = t.width (k + 1) := by
    rw [boundaryAt, Range.len_mk, t.offset_succ (k + 1), Nat.add_sub_cancel_left]
  rw [enter, hlen]
  rfl

theorem wrappingAdd_eq {a b : ℕ} (h : a + b < u32Modulus) : wrappingAdd a b = a + b :=
  Nat.mod_eq_of_lt h

theorem saturatingAdd_eq {a b : ℕ} (h : a + b ≤ u32Max) : saturatingAdd a b = a + b :=
  Nat.min_eq_left h

theorem two_mul_infW_add_infW_le : 2 * infW + infW ≤ u32Max := by decide

theorem u32Max_lt : u32Max < u32Modulus := by decide

section Resolved

variable {t : Trellis} (hv : t.Valid) (hr : t.fullyResolved = true)
include hv hr

/-- The rows the relaxation runs over: each live node with its edges. -/
theorem mem_reachable {k : ℕ} (hk : k + 1 < t.layers) {c : List ℕ} (hc : c.length = t.width k)
    {p : ℕ × List ℕ} :
    p ∈ (c.zip (chunksExact (t.width (k + 1)) (t.weights k))).filter (fun p => decide (p.1 < infW)) ↔
      ∃ i < t.width k, c.getD i infW < infW ∧ p.1 = c.getD i infW ∧
        p.2 = ((t.weights k).drop (i * t.width (k + 1))).take (t.width (k + 1)) := by
  have hn := hv.width_pos_of_lt (k := k + 1) hk
  have hl := length_weights hv hr hk
  have hchunks := length_chunksExact hn hl
  rw [List.mem_filter, List.mem_iff_getElem?, decide_eq_true_eq]
  constructor
  · rintro ⟨⟨i, hi⟩, hlive⟩
    rw [List.getElem?_zip_eq_some] at hi
    obtain ⟨h1, h2⟩ := hi
    obtain ⟨hic, hget⟩ := List.getElem?_eq_some_iff.mp h1
    have hp1 : p.1 = c.getD i infW := by rw [List.getD_eq_getElem _ _ hic, hget]
    rw [hc] at hic
    rw [getElem?_chunksExact hn hl hic] at h2
    exact ⟨i, hic, hp1 ▸ hlive, hp1, (Option.some.inj h2).symm⟩
  · rintro ⟨i, hi, hlive, hp1, hp2⟩
    refine ⟨⟨i, ?_⟩, hp1 ▸ hlive⟩
    rw [List.getElem?_zip_eq_some, getElem?_chunksExact hn hl hi, hp1, hp2,
      List.getD_eq_getElem _ _ (by rw [hc]; exact hi)]
    exact ⟨List.getElem?_eq_getElem _, rfl⟩

theorem length_chunk {k i : ℕ} (hk : k + 1 < t.layers) (hi : i < t.width k) :
    (((t.weights k).drop (i * t.width (k + 1))).take (t.width (k + 1))).length
      = t.width (k + 1) := by
  have hle : i * t.width (k + 1) + t.width (k + 1) ≤ t.width k * t.width (k + 1) := by
    rw [← Nat.succ_mul]
    exact Nat.mul_le_mul_right _ hi
  rw [List.length_take, List.length_drop, length_weights hv hr hk]
  omega

/-- What the relaxation leaves at node `j`: the least cost of reaching it over a
live node, and `infW` when there is none below `infW`. -/
theorem relaxed_spec {k j : ℕ} (hk : k + 1 < t.layers) {c : List ℕ} (hc : c.length = t.width k)
    (hj : j < t.width (k + 1)) :
    (relaxed t k c).length = t.width (k + 1) ∧
    (relaxed t k c).getD j infW ≤ infW ∧
    (∀ i < t.width k, c.getD i infW < infW →
      (relaxed t k c).getD j infW ≤ c.getD i infW + t.edgeWeight k i j) ∧
    ((relaxed t k c).getD j infW = infW ∨ ∃ i < t.width k, c.getD i infW < infW ∧
      (relaxed t k c).getD j infW = c.getD i infW + t.edgeWeight k i j) := by
  have hbound := two_mul_infW_add_infW_le
  have hmod := u32Max_lt
  obtain ⟨hlen, hval⟩ := getD_foldl_zipWith
    (fun (p : ℕ × List ℕ) n edge => min n (wrappingAdd p.1 edge)) Prod.snd hj infW
    ((c.zip (chunksExact (t.width (k + 1)) (t.weights k))).filter fun p => decide (p.1 < infW))
    (List.replicate (t.width (k + 1)) infW) List.length_replicate (by
      intro p hp
      obtain ⟨i, hi, -, -, hp2⟩ := (mem_reachable hv hr hk hc).mp hp
      rw [hp2, length_chunk hv hr hk hi])
  obtain ⟨h1, h2, h3⟩ := foldl_min_spec (fun p : ℕ × List ℕ => wrappingAdd p.1 (p.2.getD j infW))
    ((c.zip (chunksExact (t.width (k + 1)) (t.weights k))).filter fun p => decide (p.1 < infW))
    infW
  have hinit : (List.replicate (t.width (k + 1)) infW).getD j infW = infW := by
    rw [List.getD_eq_getElem _ _ (by rwa [List.length_replicate]), List.getElem_replicate]
  rw [hinit] at hval
  -- a live row offers exactly the sum: nothing wraps below `2 ^ 32`
  have hoffer : ∀ i < t.width k, c.getD i infW < infW →
      wrappingAdd (c.getD i infW)
        ((((t.weights k).drop (i * t.width (k + 1))).take (t.width (k + 1))).getD j infW)
          = c.getD i infW + t.edgeWeight k i j := by
    intro i hi hlive
    have hchunk : (((t.weights k).drop (i * t.width (k + 1))).take (t.width (k + 1))).getD j infW
        = t.edgeWeight k i j := by
      have hlt : i * t.width (k + 1) + j < (t.weights k).length := by
        rw [length_weights hv hr hk]
        calc i * t.width (k + 1) + j < (i + 1) * t.width (k + 1) := by rw [Nat.succ_mul]; omega
          _ ≤ t.width k * t.width (k + 1) := Nat.mul_le_mul_right _ hi
      rw [edgeWeight_eq hv hr hk, List.getD_eq_getElem?_getD, List.getElem?_take_of_lt hj,
        List.getElem?_drop, List.getD_eq_getElem?_getD, List.getElem?_eq_getElem hlt]
      rfl
    have hedge := edgeWeight_le hv hr hk i j
    rw [hchunk, wrappingAdd_eq (by omega)]
  refine ⟨hlen, ?_, fun i hi hlive => ?_, ?_⟩
  · exact hval.trans_le h1
  · rw [← hoffer i hi hlive]
    exact hval.trans_le (h2 (c.getD i infW, _)
      ((mem_reachable hv hr hk hc).mpr ⟨i, hi, hlive, rfl, rfl⟩))
  · rcases h3 with h3 | ⟨p, hp, h3⟩
    · exact Or.inl (hval.trans h3)
    · obtain ⟨i, hi, hlive, hp1, hp2⟩ := (mem_reachable hv hr hk hc).mp hp
      refine Or.inr ⟨i, hi, hlive, ?_⟩
      rw [← hoffer i hi hlive, ← hp1, ← hp2]
      exact hval.trans h3

theorem length_enter {k : ℕ} (hk : k + 1 < t.layers) {c : List ℕ} (hc : c.length = t.width k) :
    (enter (boundaryAt t k) c).length = t.width (k + 1) := by
  have hlen := (relaxed_spec hv hr hk hc (hv.width_pos_of_lt hk)).1
  rw [enter_boundaryAt, List.length_zipWith, hlen, hv.length_nodeRow, min_self]

/-- Entering a node costs its weight, paid only by the nodes some path reaches. -/
theorem getD_enter {k j : ℕ} (hk : k + 1 < t.layers) {c : List ℕ} (hc : c.length = t.width k)
    (hj : j < t.width (k + 1)) :
    (enter (boundaryAt t k) c).getD j infW =
      if (relaxed t k c).getD j infW < infW then
        (relaxed t k c).getD j infW + t.graph.node (k + 1) j
      else infW := by
  obtain ⟨hlen, hle, -, -⟩ := relaxed_spec hv hr hk hc hj
  have hrelaxed : j < (relaxed t k c).length := by rwa [hlen]
  have hrow : j < (t.nodeRow (k + 1)).length := by rwa [hv.length_nodeRow]
  have hnode := hv.nodeRow_getD_le (k + 1) j
  have hmax := maxWeight_lt_infW
  have hbound := two_mul_infW_add_infW_le
  have hmod := u32Max_lt
  rw [List.getD_eq_getElem _ _ (by rw [length_enter hv hr hk hc]; exact hj), graph_node,
    List.getD_eq_getElem _ _ hrow, List.getD_eq_getElem _ _ hrelaxed]
  rw [List.getD_eq_getElem _ _ hrow] at hnode
  rw [List.getD_eq_getElem _ _ hrelaxed] at hle
  simp only [enter_boundaryAt, List.getElem_zipWith]
  split_ifs with hlive
  · exact wrappingAdd_eq (by omega)
  · omega

/-- Every layer's row has one cost for each of its nodes. -/
theorem length_row {k : ℕ} (hk : k < t.layers) : (row t k).length = t.width k := by
  induction k with
  | zero => exact hv.length_nodeRow
  | succ k ih => exact length_enter hv hr hk (ih (by omega))

omit hr in
theorem cost_zero {j : ℕ} (hj : j < t.width 0) : cost t 0 j = t.graph.node 0 j := by
  have hlen : j < (t.nodeRow 0).length := by rwa [hv.length_nodeRow]
  rw [cost, row, graph_node, List.getD_eq_getElem _ _ hlen, List.getD_eq_getElem _ _ hlen]

/-- A node's cost comes from the layer before it. -/
theorem cost_succ {k j : ℕ} (hk : k + 1 < t.layers) (hj : j < t.width (k + 1)) :
    cost t (k + 1) j =
      if reached t k j < infW then reached t k j + t.graph.node (k + 1) j else infW :=
  getD_enter hv hr hk (length_row hv hr (by omega)) hj

theorem reached_le {k i j : ℕ} (hk : k + 1 < t.layers) (hj : j < t.width (k + 1))
    (hi : i < t.width k) (hlive : cost t k i < infW) :
    reached t k j ≤ cost t k i + t.edgeWeight k i j :=
  (relaxed_spec hv hr hk (length_row hv hr (by omega)) hj).2.2.1 i hi hlive

theorem exists_of_reached_lt {k j : ℕ} (hk : k + 1 < t.layers) (hj : j < t.width (k + 1))
    (h : reached t k j < infW) :
    ∃ i < t.width k, cost t k i < infW ∧ reached t k j = cost t k i + t.edgeWeight k i j :=
  (relaxed_spec hv hr hk (length_row hv hr (by omega)) hj).2.2.2.resolve_left h.ne

/-- No cost comes near `u32::MAX`. -/
theorem cost_lt {k j : ℕ} (hk : k < t.layers) (hj : j < t.width k) : cost t k j < 2 * infW := by
  have hmax := maxWeight_lt_infW
  have hnode := hv.nodeRow_getD_le k j
  cases k with
  | zero =>
    rw [cost_zero hv hj, graph_node]
    omega
  | succ k =>
    rw [cost_succ hv hr hk hj, graph_node]
    split_ifs <;> omega

/-! ### Predecessors -/

/-- What each node of layer `k` offers to node `j` of the next layer. -/
theorem offers_eq {k j : ℕ} (hk : k + 1 < t.layers) (hj : j < t.width (k + 1)) :
    List.zipWith saturatingAdd (row t k) (stepBy (t.width (k + 1)) ((t.weights k).drop j))
      = (List.range (t.width k)).map fun i => cost t k i + t.edgeWeight k i j := by
  have hlen := length_row hv hr (show k < t.layers by omega)
  have hbound := two_mul_infW_add_infW_le
  rw [stepBy_drop (length_weights hv hr hk) hj]
  apply List.ext_getElem
  · simp [hlen]
  · intro i h1 h2
    have hi : i < t.width k := by simpa using h2
    have hcost := cost_lt hv hr (show k < t.layers by omega) hi
    have hedge := edgeWeight_le hv hr hk i j
    have hget : ∀ h : i < (row t k).length, (row t k)[i] = cost t k i :=
      fun h => (List.getD_eq_getElem _ _ h).symm
    simp only [List.getElem_zipWith, List.getElem_map, List.getElem_range, hget,
      ← edgeWeight_eq hv hr hk]
    exact saturatingAdd_eq (by omega)

/-- The recomputed predecessor: the first of the nodes that offer least. -/
theorem pred_spec {k j : ℕ} (hk : k + 1 < t.layers) (hj : j < t.width (k + 1)) :
    pred t k j < t.width k ∧ ∀ i < t.width k,
      cost t k (pred t k j) + t.edgeWeight k (pred t k j) j ≤ cost t k i + t.edgeWeight k i j ∧
      (cost t k i + t.edgeWeight k i j
        ≤ cost t k (pred t k j) + t.edgeWeight k (pred t k j) j → pred t k j ≤ i) := by
  have hpos := hv.width_pos_of_lt (show k < t.layers by omega)
  have hoffers := offers_eq hv hr hk hj
  cases hmin : lexMin ((List.range (t.width k)).map
      fun i => cost t k i + t.edgeWeight k i j).zipIdx with
  | none =>
    have := congrArg List.length (lexMin_eq_none.mp hmin)
    simp at this
    omega
  | some p =>
    obtain ⟨c, b⟩ := p
    have hb : pred t k j = b := by rw [pred, hoffers, hmin]; rfl
    obtain ⟨hlt, hc, hle⟩ := lexMin_zipIdx hmin
    simp only [List.length_map, List.length_range] at hlt hle
    have hget : ∀ i < t.width k, ((List.range (t.width k)).map
        fun i => cost t k i + t.edgeWeight k i j).getD i 0 = cost t k i + t.edgeWeight k i j := by
      intro i hi
      rw [List.getD_eq_getElem _ _ (by simpa using hi)]
      simp
    rw [hget b hlt] at hc
    rw [hb, hc]
    refine ⟨hlt, fun i hi => ?_⟩
    rw [← hget i hi]
    exact hle i hi

/-- **The rows are a cost table of the graph**, with the recomputed predecessors. -/
theorem isTable : t.graph.IsTable infW (t.layers - 1) (cost t) (pred t) := by
  have hlive : ∀ k < t.layers - 1, ∀ j < t.width (k + 1), cost t (k + 1) j < infW →
      cost t (k + 1) j
        = cost t k (pred t k j) + t.edgeWeight k (pred t k j) j + t.graph.node (k + 1) j := by
    intro k hk j hj hlt
    obtain ⟨hpred, hmin⟩ := pred_spec hv hr (show k + 1 < t.layers by omega) hj
    rw [cost_succ hv hr (by omega) hj] at hlt ⊢
    split_ifs at hlt ⊢ with hreached
    · obtain ⟨i, hi, -, hval⟩ := exists_of_reached_lt hv hr (by omega) hj hreached
      -- the predecessor offers no more than a live node does, so it is live itself
      have hle := (hmin i hi).1
      have hback := reached_le hv hr (by omega) hj hpred (by omega)
      omega
    · exact absurd hlt (lt_irrefl _)
  exact
    { start := fun j hj => cost_zero hv hj
      relax := by
        intro k hk i hi j hj hlt
        rw [graph_edge] at hlt
        have hle := reached_le hv hr (by omega) hj hi (by omega)
        rw [cost_succ hv hr (by omega) hj, if_pos (hle.trans_lt hlt)]
        exact Nat.add_le_add_right hle _
      pred_lt := fun k hk j hj _ => (pred_spec hv hr (by omega) hj).1
      pred_eq := hlive
      pred_first := fun k hk j hj _ i hi hle => ((pred_spec hv hr (by omega) hj).2 i hi).2 hle }

end Resolved

end ViterbiSolver

end Routers
