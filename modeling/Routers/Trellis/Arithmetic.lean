import Routers.Trellis.Solution
import Mathlib.Data.ENat.Lattice

/-!
# The arithmetic of the forward pass

The forward pass adds machine integers without checks.  This file spells the pass out as the
assignments it makes to the flat table, one after another, to see what it ever adds: an edge is
added to a cost below `INF_W` and a node weight to an entry below `INF_W`, so no sum reaches
`2 * INF_W`.

An entry may still pass `INF_W` when the node weight is added.  Such an entry is no cost of a path
below `INF_W`: the entries below `INF_W` are the least costs of entering their nodes, counted in
integers without a bound and with an absent edge at infinity.

## Main definitions

* `ViterbiSolver.Assign`, `Assign.addition`, `Assign.exec` — the assignments, and what they add.
* `ViterbiSolver.assignments` — those of a pass, in order.
* `Trellis.trueCost` — the least cost of entering a node.

## Main results

* `ViterbiSolver.run_assignments` — the assignments are the forward pass.
* `ViterbiSolver.forwardPass_arithmetic` — **no addition overflows, and the entries below `INF_W`
  are the least costs.**

## References

`src/libs/routers_trellis/src/solver/viterbi.rs` and `src/libs/routers_trellis/src/trellis.rs`.
-/

namespace Routers

open Layered (back back_self)

namespace ViterbiSolver

open Trellis

/-! ### The pass, assignment by assignment -/

/-- An assignment to the flat table.  Nodes are named by their positions in it. -/
inductive Assign
  /-- Infinity, before anything reaches `next`. -/
  | clear (next : ℕ)
  /-- The cost of `cur` and an edge to `next`, where that is less. -/
  | relax (cur next edge : ℕ)
  /-- The node weight on top. -/
  | pay (next weight : ℕ)
  deriving DecidableEq, Repr

namespace Assign

/-- What an assignment adds, if it adds at all. -/
def addition (dist : List ℕ) : Assign → Option (ℕ × ℕ)
  | clear _ => none
  | relax cur _ edge => if dist.getD cur infW < infW then some (dist.getD cur infW, edge) else none
  | pay next weight =>
    if dist.getD next infW < infW then some (dist.getD next infW, weight) else none

/-- The table after an assignment. -/
def exec (dist : List ℕ) : Assign → List ℕ
  | clear next => dist.set next infW
  | relax cur next edge =>
    -- read once a row in the code; nothing writes the layer left while its rows are relaxed
    let cost := dist.getD cur infW
    if cost < infW then dist.modify next fun n => min n (wrappingAdd cost edge) else dist
  | pay next weight => dist.modify next fun n => if n < infW then wrappingAdd n weight else n

end Assign

/-- The table after some assignments. -/
def run (assigns : List Assign) (dist : List ℕ) : List ℕ := assigns.foldl Assign.exec dist

/-- The assignments of one boundary. -/
def Boundary.assignments (boundary : Boundary) : List Assign :=
  (List.range' boundary.next.start boundary.next.len).map Assign.clear
    ++ ((List.range' boundary.cur.start boundary.cur.len).zip
          (chunksExact boundary.next.len boundary.weights)).flatMap
        (fun p => (p.2.zipIdx boundary.next.start).map fun q => Assign.relax p.1 q.2 q.1)
    ++ (boundary.nodeWeights.zipIdx boundary.next.start).map fun q => Assign.pay q.2 q.1

/-- The assignments of a pass. -/
def assignments (boundaries : List Boundary) : List Assign :=
  boundaries.flatMap Boundary.assignments

theorem run_append (as bs : List Assign) (dist : List ℕ) :
    run (as ++ bs) dist = run bs (run as dist) :=
  List.foldl_append

/-! ### Sums stay small -/

/-- What an assignment may add: an edge weight or infinity, or a node weight. -/
def Assign.Fits : Assign → Prop
  | .clear _ => True
  | .relax _ _ edge => edge ≤ infW
  | .pay _ weight => weight ≤ maxWeight

section Fits

variable {assign : Assign} {dist : List ℕ}

theorem Assign.addition_lt (h : assign.Fits) {a b : ℕ} (hab : assign.addition dist = some (a, b)) :
    a < infW ∧ b ≤ infW := by
  have hmax := maxWeight_lt_infW
  cases assign with
  | clear next => cases hab
  | relax cur next edge =>
    rw [addition] at hab
    split_ifs at hab with hlive
    cases hab
    exact ⟨hlive, h⟩
  | pay next weight =>
    rw [addition] at hab
    split_ifs at hab with hlive
    cases hab
    exact ⟨hlive, h.trans hmax.le⟩

/-- **No addition exceeds `u32::MAX`.** -/
theorem Assign.addition_le (h : assign.Fits) {a b : ℕ}
    (hab : assign.addition dist = some (a, b)) : a + b ≤ u32Max := by
  have hadd := addition_lt h hab
  have hbound := two_mul_infW_add_infW_le
  omega

theorem lt_of_mem_modify {bound : ℕ} {f : ℕ → ℕ} (h : ∀ x ∈ dist, x < bound)
    (hf : ∀ x < bound, f x < bound) (i : ℕ) : ∀ x ∈ dist.modify i f, x < bound := by
  intro x hx
  obtain ⟨j, hj⟩ := List.getElem?_of_mem hx
  rw [List.getElem?_modify] at hj
  obtain ⟨y, hy, rfl⟩ := Option.map_eq_some_iff.mp hj
  have hlt := h y (List.mem_of_getElem? hy)
  split_ifs
  · exact hf y hlt
  · exact hlt

/-- An assignment keeps the table below `2 * INF_W`. -/
theorem Assign.exec_lt (h : assign.Fits) (hdist : ∀ x ∈ dist, x < 2 * infW) :
    ∀ x ∈ assign.exec dist, x < 2 * infW := by
  have hmax := maxWeight_lt_infW
  have hbound := two_mul_infW_add_infW_le
  have hmod := u32Max_lt
  have hpos : 0 < infW := by decide
  cases assign with
  | clear next =>
    intro x hx
    rcases List.mem_or_eq_of_mem_set hx with hx | rfl
    · exact hdist x hx
    · omega
  | relax cur next edge =>
    rw [exec]
    split_ifs
    · exact lt_of_mem_modify hdist (fun x hx => (min_le_left _ _).trans_lt hx) next
    · exact hdist
  | pay next weight =>
    refine lt_of_mem_modify hdist (fun x hx => ?_) next
    have hweight : weight ≤ maxWeight := h
    split_ifs with hlive
    · rw [wrappingAdd_eq (by omega)]
      omega
    · exact hx

/-- So do any assignments. -/
theorem run_lt {assigns : List Assign} (h : ∀ a ∈ assigns, a.Fits)
    (hdist : ∀ x ∈ dist, x < 2 * infW) : ∀ x ∈ run assigns dist, x < 2 * infW := by
  induction assigns generalizing dist with
  | nil => exact hdist
  | cons a as ih =>
    obtain ⟨ha, has⟩ := List.forall_mem_cons.mp h
    exact ih has (Assign.exec_lt ha hdist)

end Fits

/-! ### The assignments are the forward pass -/

theorem getD_append_left {head l : List ℕ} {i d : ℕ} (hi : i < head.length) :
    (head ++ l).getD i d = head.getD i d :=
  List.getD_append _ _ _ _ hi

theorem length_of_mem_chunksExact {n : ℕ} {l row : List ℕ} (h : row ∈ chunksExact n l) :
    row.length = n := by
  obtain ⟨i, hi, rfl⟩ := List.mem_map.mp h
  have hmul := Nat.div_mul_le_self l.length n
  have hle : (i + 1) * n ≤ l.length / n * n := Nat.mul_le_mul_right _ (List.mem_range.mp hi)
  rw [Nat.succ_mul] at hle
  rw [List.length_take, List.length_drop]
  omega

/-- Assignments that each rewrite one entry, in the order of the entries, rewrite the row of
them. -/
theorem run_row (head : List ℕ) {a : ℕ × ℕ → Assign} {f : ℕ → ℕ → ℕ}
    (hexec : ∀ (done rest : List ℕ) (n x : ℕ),
      (a (x, (head ++ done).length)).exec (head ++ done ++ n :: rest)
        = head ++ done ++ f n x :: rest) :
    ∀ (row done next rest : List ℕ), row.length = next.length →
      run ((row.zipIdx (head ++ done).length).map a) (head ++ done ++ (next ++ rest))
        = head ++ done ++ (List.zipWith f next row ++ rest) := by
  intro row
  induction row with
  | nil =>
    intro done next rest hlen
    obtain rfl : next = [] := List.length_eq_zero_iff.mp hlen.symm
    rfl
  | cons x row ih =>
    intro done next rest hlen
    cases next with
    | nil => cases hlen
    | cons n next =>
      have hrest : run ((row.zipIdx ((head ++ done).length + 1)).map a)
          (head ++ done ++ f n x :: (next ++ rest))
            = head ++ done ++ f n x :: (List.zipWith f next row ++ rest) := by
        have happend := ih (done ++ [f n x]) next rest (Nat.succ.inj hlen)
        simpa [Nat.add_assoc] using happend
      have hfirst := hexec done (next ++ rest) n x
      rw [List.zipIdx_cons, List.map_cons, run, List.foldl_cons, List.cons_append, hfirst,
        List.zipWith_cons_cons, List.cons_append]
      exact hrest

section Boundary

variable {head next rest : List ℕ}

theorem exec_clear (done rest : List ℕ) (n : ℕ) :
    (Assign.clear done.length).exec (done ++ n :: rest) = done ++ infW :: rest := by
  rw [Assign.exec, List.set_append_right _ _ le_rfl, Nat.sub_self, List.set_cons_zero]

theorem modify_length (done rest : List ℕ) (n : ℕ) (f : ℕ → ℕ) :
    (done ++ n :: rest).modify done.length f = done ++ f n :: rest := by
  induction done with
  | nil => rfl
  | cons x done ih => simpa using ih

/-- The row is cleared. -/
theorem run_clear :
    run ((List.range' head.length next.length).map Assign.clear) (head ++ (next ++ rest))
      = head ++ (List.replicate next.length infW ++ rest) := by
  have hrow := run_row head (a := fun q => Assign.clear q.2) (f := fun _ _ => infW)
    (fun done rest n _ => exec_clear (head ++ done) rest n) next [] next rest rfl
  rw [List.append_nil] at hrow
  rw [← List.zipIdx_map_snd head.length next, List.map_map]
  refine hrow.trans ?_
  rw [List.zipWith_self, List.map_const']

/-- One node of the layer before relaxes the row. -/
theorem run_relax {cur : ℕ} (hcur : cur < head.length) {row : List ℕ}
    (hlen : row.length = next.length) :
    run ((row.zipIdx head.length).map fun q => Assign.relax cur q.2 q.1) (head ++ (next ++ rest))
      = head ++ ((if head.getD cur infW < infW then
          List.zipWith (fun n edge => min n (wrappingAdd (head.getD cur infW) edge)) next row
        else next) ++ rest) := by
  have hcost : ∀ done rest, (head ++ done ++ rest).getD cur infW = head.getD cur infW := by
    intro done rest
    rw [List.append_assoc, getD_append_left hcur]
  split_ifs with hlive
  · have hrow := run_row head (a := fun q => Assign.relax cur q.2 q.1)
      (f := fun n edge => min n (wrappingAdd (head.getD cur infW) edge))
      (fun done rest n x => by
        rw [Assign.exec]
        simp only [hcost, if_pos hlive]
        exact modify_length _ _ _ _) row [] next rest hlen
    rwa [List.append_nil] at hrow
  · -- a node no path reaches is skipped
    have hskip : ∀ assigns : List Assign, (∀ a ∈ assigns, ∃ i e, a = Assign.relax cur i e) →
        run assigns (head ++ (next ++ rest)) = head ++ (next ++ rest) := by
      intro assigns
      induction assigns with
      | nil => intro _; rfl
      | cons a as ih =>
        intro h
        obtain ⟨⟨i, e, rfl⟩, has⟩ := List.forall_mem_cons.mp h
        rw [run, List.foldl_cons, Assign.exec]
        simp only [getD_append_left hcur, if_neg hlive]
        exact ih has
    apply hskip
    intro a ha
    obtain ⟨q, -, rfl⟩ := List.mem_map.mp ha
    exact ⟨_, _, rfl⟩

/-- All the nodes of the layer before relax the row. -/
theorem run_relaxes : ∀ {ps : List (ℕ × List ℕ)} {next : List ℕ},
    (∀ p ∈ ps, p.1 < head.length ∧ p.2.length = next.length) →
    run (ps.flatMap fun p => (p.2.zipIdx head.length).map fun q => Assign.relax p.1 q.2 q.1)
        (head ++ (next ++ rest))
      = head ++ (ps.foldl (fun next p => if head.getD p.1 infW < infW then
          List.zipWith (fun n edge => min n (wrappingAdd (head.getD p.1 infW) edge)) next p.2
        else next) next ++ rest) := by
  intro ps
  induction ps with
  | nil => intro next _; rfl
  | cons p ps ih =>
    intro next h
    obtain ⟨⟨hcur, hlen⟩, hps⟩ := List.forall_mem_cons.mp h
    rw [List.flatMap_cons, run_append, run_relax hcur hlen, List.foldl_cons]
    refine ih fun q hq => ⟨(hps q hq).1, ?_⟩
    split_ifs
    · rw [(hps q hq).2, List.length_zipWith, hlen, min_self]
    · exact (hps q hq).2

/-- The node weights are paid. -/
theorem run_pay {weights : List ℕ} (hlen : weights.length = next.length) :
    run ((weights.zipIdx head.length).map fun q => Assign.pay q.2 q.1) (head ++ (next ++ rest))
      = head ++ (List.zipWith (fun n weight => if n < infW then wrappingAdd n weight else n)
          next weights ++ rest) := by
  have hrow := run_row head (a := fun q => Assign.pay q.2 q.1)
    (f := fun n weight => if n < infW then wrappingAdd n weight else n)
    (fun done rest n x => modify_length _ _ _ _) weights [] next rest hlen
  rwa [List.append_nil] at hrow

end Boundary

/-- The costs of the layer before, by their positions. -/
theorem slice_eq_map (dist : List ℕ) {r : Range} {n : ℕ} (hr : r.stop ≤ n) (hn : n ≤ dist.length) :
    slice dist r = (List.range' r.start r.len).map fun i => (dist.take n).getD i infW := by
  apply List.ext_getElem?
  intro i
  rcases Nat.lt_or_ge i r.len with hi | hi
  · have hlt : r.start + i < r.stop := by
      rw [Range.len] at hi
      omega
    rw [List.getElem?_map, List.getElem?_range' hi, Option.map_some, one_mul, getElem?_slice _ hlt,
      List.getD_eq_getElem _ _ (by rw [List.length_take]; omega), List.getElem_take,
      List.getElem?_eq_getElem (by omega)]
  · rw [List.getElem?_eq_none (by rw [length_slice _ _ (hr.trans hn)]; exact hi),
      List.getElem?_eq_none (by simpa using hi)]

/-- The entered row once all the nodes before have relaxed it, their costs read from the table. -/
def Boundary.crossed (boundary : Boundary) (head : List ℕ) : List ℕ :=
  ((List.range' boundary.cur.start boundary.cur.len).zip
      (chunksExact boundary.next.len boundary.weights)).foldl
    (fun next p => if head.getD p.1 infW < infW then
        List.zipWith (fun n edge => min n (wrappingAdd (head.getD p.1 infW) edge)) next p.2
      else next)
    (List.replicate boundary.next.len infW)

theorem enter_eq (boundary : Boundary) (head : List ℕ) :
    enter boundary ((List.range' boundary.cur.start boundary.cur.len).map fun i =>
        head.getD i infW)
      = List.zipWith (fun n weight => if n < infW then wrappingAdd n weight else n)
          (boundary.crossed head) boundary.nodeWeights := by
  rw [enter, Boundary.crossed, List.zip_map_left, List.filter_map, List.foldl_map,
    List.foldl_filter]
  simp only [Function.comp_apply, Prod.map_fst, Prod.map_snd, id_eq, decide_eq_true_eq]

/-- **The assignments of a boundary write its entered layer.** -/
theorem run_boundary {boundary : Boundary} {dist : List ℕ}
    (hcur : boundary.cur.stop ≤ boundary.next.start)
    (hnext : boundary.next.start ≤ boundary.next.stop)
    (hstop : boundary.next.stop ≤ dist.length)
    (hnodes : boundary.nodeWeights.length = boundary.next.len) :
    run boundary.assignments dist
      = copyFromSlice dist boundary.next (enter boundary (slice dist boundary.cur)) := by
  -- the table as the code splits it: what lies before the entered layer, the layer, and the rest
  obtain ⟨head, hhead⟩ : ∃ head, head = dist.take boundary.next.start := ⟨_, rfl⟩
  obtain ⟨next, hrow⟩ : ∃ next, next = slice dist boundary.next := ⟨_, rfl⟩
  obtain ⟨rest, hrest⟩ : ∃ rest, rest = dist.drop boundary.next.stop := ⟨_, rfl⟩
  have hheadlen : boundary.next.start = head.length := by
    rw [hhead, List.length_take]
    omega
  have hnextlen : boundary.next.len = next.length := by
    rw [hrow, length_slice dist boundary.next hstop]
  have hsplit : dist = head ++ (next ++ rest) := by
    rw [hhead, hrow, hrest, slice, ← List.append_assoc]
    conv_lhs => rw [← List.take_append_drop boundary.next.stop dist,
      ← List.take_append_drop boundary.next.start (dist.take boundary.next.stop),
      List.take_take, Nat.min_eq_left hnext]
  have hcosts := slice_eq_map dist hcur (by omega)
  rw [← hhead] at hcosts
  have hps : ∀ p ∈ (List.range' boundary.cur.start boundary.cur.len).zip
      (chunksExact boundary.next.len boundary.weights),
      p.1 < head.length ∧ p.2.length = (List.replicate boundary.next.len infW).length := by
    intro p hp
    obtain ⟨h1, h2⟩ := List.of_mem_zip hp
    rw [List.mem_range'_1, Range.len] at h1
    rw [← hheadlen, List.length_replicate]
    exact ⟨by omega, length_of_mem_chunksExact h2⟩
  have hcrossed : (boundary.crossed head).length = boundary.next.len := by
    rw [Boundary.crossed]
    refine List.foldlRecOn (motive := fun row : List ℕ => row.length = boundary.next.len) _ _
      List.length_replicate fun row hlen p hp => ?_
    split_ifs
    · rw [List.length_zipWith, (hps p hp).2, List.length_replicate, hlen, min_self]
    · exact hlen
  rw [hcosts, enter_eq, copyFromSlice, ← hhead, ← hrest, List.append_assoc, hsplit,
    Boundary.assignments, run_append, run_append, hheadlen, hnextlen, run_clear, ← hnextlen,
    run_relaxes hps]
  exact run_pay (hnodes.trans hcrossed.symm)

section Resolved

variable {t : Trellis} (hv : t.Valid) (hr : t.fullyResolved = true)
include hv hr

/-- **The assignments, one after another, are the forward pass.** -/
theorem run_assignments {n : ℕ} (hn : n < t.layers) :
    run (assignments ((List.range n).map (boundaryAt t))) t.nodes = flat t n := by
  induction n with
  | zero => rfl
  | succ n ih =>
    have hlen := (flat_spec hv hr (show n < t.layers by omega)).1
    have hmono : t.offset (n + 1) ≤ t.offset (n + 2) := t.offset_mono (by omega)
    have hstop : t.offset (n + 2) ≤ (flat t n).length := by
      rw [hlen, hv.nodes_length]
      exact t.offset_le _
    have hnodes : (boundaryAt t n).nodeWeights.length = (boundaryAt t n).next.len := by
      rw [boundaryAt, Range.len_mk, hv.length_nodeRow, t.offset_succ (n + 1),
        Nat.add_sub_cancel_left]
    rw [List.range_succ, List.map_append, List.map_singleton, assignments, List.flatMap_append,
      List.flatMap_singleton, run_append, flat_succ]
    rw [assignments] at ih
    rw [ih (by omega)]
    exact run_boundary le_rfl hmono hstop hnodes

/-- What the pass adds are edges of the trellis, infinity, and node weights. -/
theorem fits_of_mem_assignments {n : ℕ} (hn : n < t.layers) :
    ∀ a ∈ assignments ((List.range n).map (boundaryAt t)), a.Fits := by
  intro a ha
  rw [assignments, List.mem_flatMap] at ha
  obtain ⟨boundary, hb, ha⟩ := ha
  obtain ⟨k, hk, rfl⟩ := List.mem_map.mp hb
  have hlt : k + 1 < t.layers := by
    have := List.mem_range.mp hk
    omega
  rw [Boundary.assignments, List.mem_append, List.mem_append] at ha
  rcases ha with (ha | ha) | ha
  · obtain ⟨next, -, rfl⟩ := List.mem_map.mp ha
    trivial
  · obtain ⟨p, hp, ha⟩ := List.mem_flatMap.mp ha
    obtain ⟨q, hq, rfl⟩ := List.mem_map.mp ha
    obtain ⟨i, -, hi⟩ := List.mem_map.mp (List.of_mem_zip hp).2
    have hmem : q.1 ∈ t.weights k := by
      have hrow := List.fst_mem_of_mem_zipIdx hq
      rw [← hi] at hrow
      exact List.mem_of_mem_drop (List.mem_of_mem_take hrow)
    rcases hv.weights_le k _ (transitions_eq hv hr hlt) q.1 hmem with h | h
    · exact h.trans maxWeight_lt_infW.le
    · exact h.le
  · obtain ⟨q, hq, rfl⟩ := List.mem_map.mp ha
    exact hv.nodeRow_le (List.fst_mem_of_mem_zipIdx hq)

/-- The entry of a node after the pass. -/
theorem getElem?_flat {k j : ℕ} (hk : k < t.layers) (hj : j < t.width k) :
    (flat t (t.layers - 1))[t.offset k + j]? = some (cost t k j) := by
  have hrow := slice_flat hv hr hk
  have hlen : j < (row t k).length := by rwa [length_row hv hr hk]
  have hget : (slice (flat t (t.layers - 1)) (layerRange t k))[j]?
      = (flat t (t.layers - 1))[t.offset k + j]? :=
    getElem?_slice _ (by rw [t.offset_succ]; omega)
  rw [← hget, hrow, cost, List.getD_eq_getElem _ _ hlen, List.getElem?_eq_getElem hlen]

end Resolved

end ViterbiSolver

/-! ### The least cost of entering a node -/

namespace Trellis

/-- A trellis as a layered graph of unbounded costs, where no edge is an infinite one. -/
def trueGraph (t : Trellis) : Layered.Graph ℕ∞ where
  width := t.width
  node k j := (t.graph.node k j : ℕ∞)
  edge k i j := if t.edgeWeight k i j < infW then (t.edgeWeight k i j : ℕ∞) else ⊤

/-- The least cost of entering node `j` of layer `k`, over all the node paths that end there. -/
noncomputable def trueCost (t : Trellis) (k j : ℕ) : ℕ∞ :=
  ⨅ p : {p : ℕ → ℕ // t.trueGraph.IsPath k p ∧ p k = j}, t.trueGraph.cost p k

section TrueCost

variable {t : Trellis}

/-- The integers count no path dearer than it is. -/
theorem le_trueGraph_cost (p : ℕ → ℕ) (n : ℕ) : (t.graph.cost p n : ℕ∞) ≤ t.trueGraph.cost p n := by
  induction n with
  | zero => exact le_rfl
  | succ n ih =>
    have hedge : (t.graph.edge n (p n) (p (n + 1)) : ℕ∞)
        ≤ t.trueGraph.edge n (p n) (p (n + 1)) := by
      simp only [trueGraph, graph_edge]
      split_ifs
      · exact le_rfl
      · exact le_top
    rw [Layered.Graph.cost, Layered.Graph.cost, Nat.cast_add, Nat.cast_add]
    exact add_le_add (add_le_add ih hedge) le_rfl

/-- A path below infinity takes no absent edge, and the integers count it right. -/
theorem trueGraph_cost_of_lt {p : ℕ → ℕ} {n : ℕ} (h : t.graph.cost p n < infW) :
    t.trueGraph.cost p n = (t.graph.cost p n : ℕ∞) := by
  induction n with
  | zero => rfl
  | succ n ih =>
    rw [Layered.Graph.cost] at h
    have hedge : t.trueGraph.edge n (p n) (p (n + 1))
        = (t.graph.edge n (p n) (p (n + 1)) : ℕ∞) := by
      rw [graph_edge] at h ⊢
      exact if_pos (by omega)
    rw [Layered.Graph.cost, Layered.Graph.cost, ih (by omega), hedge, Nat.cast_add, Nat.cast_add]
    rfl

end TrueCost

end Trellis

namespace ViterbiSolver

open Trellis

section Resolved

variable {t : Trellis} (hv : t.Valid) (hr : t.fullyResolved = true)
include hv hr

/-- **An entry below infinity is the least cost of entering its node.** -/
theorem cost_eq_trueCost {k j : ℕ} (hk : k < t.layers) (hj : j < t.width k)
    (h : cost t k j < infW) : (cost t k j : ℕ∞) = t.trueCost k j := by
  have hT := isTable hv hr
  have hback := hT.cost_back (by omega) hj h
  apply le_antisymm
  · refine le_iInf fun ⟨p, hp, hend⟩ => ?_
    refine le_trans ?_ (le_trueGraph_cost p k)
    rw [Nat.cast_le]
    -- a path that costs infinity or more costs more than the entry anyway
    rcases Nat.lt_or_ge (t.graph.cost p k) infW with hlt | hge
    · have hle := hT.le_cost (by omega) hp hlt
      rwa [hend] at hle
    · exact h.le.trans hge
  · have hle := iInf_le (fun p : {p : ℕ → ℕ // t.trueGraph.IsPath k p ∧ p k = j} =>
      t.trueGraph.cost p k)
      ⟨back (pred t) k j, hT.isPath_back (by omega) hj h, back_self _ _ _⟩
    rwa [trueGraph_cost_of_lt (by rwa [hback]), hback] at hle

/-- The entries below infinity are those of the nodes that can be entered below infinity. -/
theorem cost_lt_iff_trueCost {k j : ℕ} (hk : k < t.layers) (hj : j < t.width k) :
    cost t k j < infW ↔ t.trueCost k j < infW := by
  constructor
  · intro h
    rw [← cost_eq_trueCost hv hr hk hj h]
    exact Nat.cast_lt.mpr h
  · intro h
    obtain ⟨⟨p, hp, hend⟩, hlt⟩ := iInf_lt_iff.mp h
    have hcost : t.graph.cost p k < infW :=
      Nat.cast_lt.mp ((le_trueGraph_cost p k).trans_lt hlt)
    have hle := (isTable hv hr).le_cost (by omega) hp hcost
    rw [hend] at hle
    exact hle.trans_lt hcost

end Resolved

/-- **The arithmetic of the forward pass.**  The assignments of a pass are a run from the node
weights to its table.  At every moment of it the entries are below `2 * INF_W` and the next
addition does not exceed `u32::MAX`.  After it an entry is below `INF_W` exactly when the least cost
of entering its node is, and then is that cost. -/
theorem forwardPass_arithmetic {t : Trellis} (hv : t.Valid) {bs : List Boundary} {last : Range}
    {dist : List ℕ} (h : tables t = .ok (bs, last, dist)) :
    run (assignments bs) t.nodes = dist ∧ dist = forwardPass bs t.nodes ∧
      (∀ done rest, assignments bs = done ++ rest →
        (∀ entry ∈ run done t.nodes, entry < 2 * infW) ∧
          ∀ next ∈ rest.head?, ∀ a b, next.addition (run done t.nodes) = some (a, b) →
            a + b ≤ u32Max) ∧
      ∀ k < t.layers, ∀ j < t.width k, ∃ entry, dist[t.offset k + j]? = some entry ∧
        (entry < infW ↔ t.trueCost k j < infW) ∧ (entry < infW → entry = t.trueCost k j) := by
  have hr : t.fullyResolved = true := by
    cases hpend : t.firstPending with
    | none => exact t.firstPending_eq_none_iff.mp hpend
    | some l =>
      rw [tables, boundaries_error hv hpend] at h
      cases h
  have hlayers : t.layers - 1 < t.layers := by
    have := hv.layers_pos
    omega
  rw [tables_resolved hv hr] at h
  cases h
  have hfits := fits_of_mem_assignments hv hr hlayers
  refine ⟨run_assignments hv hr hlayers, rfl, fun done rest hsplit => ⟨?_, ?_⟩, ?_⟩
  · refine run_lt (fun a ha => hfits a ?_) fun entry hentry => ?_
    · rw [hsplit]
      exact List.mem_append_left _ ha
    · have := hv.node_le entry hentry
      have := maxWeight_lt_infW
      omega
  · intro next hnext a b hab
    refine Assign.addition_le (hfits next ?_) hab
    rw [hsplit]
    exact List.mem_append_right _ (List.mem_of_mem_head? hnext)
  · intro k hk j hj
    exact ⟨cost t k j, getElem?_flat hv hr hk hj, cost_lt_iff_trueCost hv hr hk hj,
      cost_eq_trueCost hv hr hk hj⟩

/-- Two nodes of the largest weight, and a free edge between them. -/
def brim : Trellis := ⟨[1, 1], [maxWeight, maxWeight], [.resolved [0]]⟩

theorem brim_reachable : brim.Reachable := by
  have hnew : Trellis.new [1, 1] = .ok ⟨[1, 1], [0, 0], [.pending]⟩ := rfl
  have hfirst : fillNodes ⟨[1, 1], [0, 0], [.pending]⟩ 0 [maxWeight]
      = (.ok (), ⟨[1, 1], [maxWeight, 0], [.pending]⟩) := rfl
  have hsecond : fillNodes ⟨[1, 1], [maxWeight, 0], [.pending]⟩ 1 [maxWeight]
      = (.ok (), ⟨[1, 1], [maxWeight, maxWeight], [.pending]⟩) := rfl
  have hedge : setEdge ⟨[1, 1], [maxWeight, maxWeight], [.pending]⟩ 0 0 0 0 = (.ok (), brim) := rfl
  exact (((Trellis.Reachable.new hnew).fillNodes hfirst).fillNodes hsecond).setEdge hedge

/-- Its second entry passes infinity, and no path enters that node below infinity. -/
theorem forwardPass_arithmetic_brim : ∃ bs last,
    tables brim = .ok (bs, last, [maxWeight, maxWeight + maxWeight]) ∧
      ¬ brim.trueCost 1 0 < infW := by
  refine ⟨_, _, rfl, fun hlt => ?_⟩
  obtain ⟨entry, hentry, hiff, -⟩ :=
    (forwardPass_arithmetic brim_reachable.valid rfl).2.2.2 1 (by decide) 0 (by decide)
  have hlarge : entry = maxWeight + maxWeight := (Option.some.inj hentry).symm
  rw [← hiff, hlarge] at hlt
  exact absurd hlt (by decide)

end ViterbiSolver

end Routers
