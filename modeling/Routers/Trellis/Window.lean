import Routers.Trellis.Table

/-!
# Trellises layer by layer

A valid trellis is known by the node weights of its layers and by its transitions.
This file says what the operations do to those, and compares trellises that share a
window of layers: a trellis and what it grows into, or a trellis and a cut of it.

## Main definitions

* `Trellis.Matches` — the first layers of one trellis are layers of another.
* `Trellis.Append` — the calls that append to a trellis.

## Main results

* `Trellis.Valid.eq_of_matches` — trellises matching in all layers are equal.
* `Trellis.Matches.row_eq`, `Matches.pred_eq` — matching layers have the same costs.
* `Trellis.appendAll_matches` — appending leaves the layers that were there.
* `Trellis.appendAll_cut` — a cut trellis accepts the same appends, and stays a cut.

## References

`src/libs/routers_trellis/src/trellis.rs`.
-/

namespace Routers

namespace Trellis

/-! ### What the operations do to the layers -/

section Views

variable {t t' : Trellis}

theorem nodeRow_append (hv : t.Valid) {k : ℕ} (hk : k < t.layers) (ws ns : List ℕ)
    (trs : List Transition) :
    nodeRow ⟨t.widths ++ ws, t.nodes ++ ns, trs⟩ k = t.nodeRow k := by
  have hoffset : ∀ m ≤ t.layers, offset ⟨t.widths ++ ws, t.nodes ++ ns, trs⟩ m = t.offset m := by
    intro m hm
    simp only [offset]
    rw [List.take_append_of_le_length hm]
  rw [nodeRow, nodeRow, hoffset k hk.le, hoffset (k + 1) hk, slice_append_of_le]
  rw [hv.nodes_length]
  exact t.offset_le _

/-- A new layer has its width in zero node weights and a pending transition into it. -/
theorem addLayer_view (hv : t.Valid) {width id : ℕ} (h : t.addLayer width = (.ok id, t')) :
    id = t.layers ∧ t'.layers = t.layers + 1 ∧ (∀ k < t.layers, t'.nodeRow k = t.nodeRow k) ∧
      t'.nodeRow t.layers = List.replicate width 0 ∧
      t'.transitions = t.transitions ++ [.pending] := by
  obtain ⟨-, rfl, rfl⟩ := addLayer_ok h
  refine ⟨rfl, by simp [layers], fun k hk => nodeRow_append hv hk _ _ _, ?_, rfl⟩
  have hlow : offset ⟨t.widths ++ [width], t.nodes ++ List.replicate width 0,
      t.transitions ++ [.pending]⟩ t.layers = t.nodes.length := by
    rw [hv.nodes_length, offset, layers, List.take_left']
    rfl
  have hhigh : offset ⟨t.widths ++ [width], t.nodes ++ List.replicate width 0,
      t.transitions ++ [.pending]⟩ (t.layers + 1) = (t.nodes ++ List.replicate width 0).length := by
    rw [offset, layers, List.take_of_length_le (by simp)]
    simp [hv.nodes_length]
  rw [nodeRow, hlow, hhigh, slice, List.take_length, List.drop_left]

theorem fillNodes_view (hv : t.Valid) {layer : ℕ} {weights : List ℕ}
    (h : t.fillNodes layer weights = (.ok (), t')) :
    layer < t.layers ∧ t'.layers = t.layers ∧ t'.nodeRow layer = weights ∧
      (∀ k, k ≠ layer → t'.nodeRow k = t.nodeRow k) ∧ t'.transitions = t.transitions := by
  obtain ⟨hl, hlen, -, rfl⟩ := fillNodes_ok h
  have hmono : t.offset layer ≤ t.offset (layer + 1) := t.offset_mono (Nat.le_succ _)
  have hstop : t.offset (layer + 1) ≤ t.nodes.length := by
    rw [hv.nodes_length]
    exact t.offset_le _
  have hsrc : weights.length = t.offset (layer + 1) - t.offset layer := by
    rw [hlen, offset_succ, Nat.add_sub_cancel_left]
  refine ⟨hl, rfl, slice_copyFromSlice_self _ _ hmono hstop hsrc, fun k hk => ?_, rfl⟩
  apply slice_copyFromSlice_of_disjoint _ _ hmono hstop hsrc
  rcases Nat.lt_or_gt_of_ne hk with hlt | hgt
  · exact Or.inl (t.offset_mono hlt)
  · exact Or.inr (t.offset_mono hgt)

theorem partition_view {start stop : ℕ} (h : t.partition start stop = .ok t') :
    start < stop ∧ stop ≤ t.layers ∧ t'.layers = stop - start ∧
      (∀ k, start + k < stop → t'.nodeRow k = t.nodeRow (start + k)) ∧
      (∀ k, start + k + 1 < stop → t'.transitions[k]? = t.transitions[start + k]?) := by
  obtain ⟨hlt, hle, rfl⟩ := partition_ok h
  refine ⟨hlt, hle, length_slice _ _ hle, fun k hk => ?_, fun k hk => getElem?_slice _ (by omega)⟩
  have hoffset : ∀ m, start + m ≤ stop →
      offset ⟨slice t.widths ⟨start, stop⟩, slice t.nodes ⟨t.offset start, t.offset stop⟩,
        slice t.transitions ⟨start, stop - 1⟩⟩ m = t.offset (start + m) - t.offset start := by
    intro m hm
    have htake : (slice t.widths ⟨start, stop⟩).take m = slice t.widths ⟨start, start + m⟩ := by
      rw [slice, slice, List.take_drop, List.take_take, Nat.min_eq_left hm]
    rw [offset, htake, sum_slice_widths t (by omega)]
  have h1 : t.offset start ≤ t.offset (start + k) := t.offset_mono (by omega)
  have h2 : t.offset (start + k) ≤ t.offset (start + k + 1) := t.offset_mono (by omega)
  have h3 : t.offset (start + k + 1) ≤ t.offset stop := t.offset_mono (by omega)
  rw [nodeRow, hoffset k (by omega), hoffset (k + 1) (by omega), ← Nat.add_assoc,
    slice_slice _ (by omega), nodeRow]
  congr 2 <;> omega

end Views

/-! ### Matching layers -/

/-- The first `n` layers of `u` are the layers `L, …, L + n - 1` of `t`. -/
structure Matches (L n : ℕ) (u t : Trellis) : Prop where
  le : n ≤ u.layers
  le' : L + n ≤ t.layers
  nodeRow_eq : ∀ k < n, u.nodeRow k = t.nodeRow (L + k)
  transition_eq : ∀ k, k + 1 < n → u.transitions[k]? = t.transitions[L + k]?

namespace Matches

variable {L n : ℕ} {u t : Trellis}

theorem refl (t : Trellis) : Matches 0 t.layers t t where
  le := le_rfl
  le' := by omega
  nodeRow_eq k _ := by rw [Nat.zero_add]
  transition_eq k _ := by rw [Nat.zero_add]

theorem trans {t' : Trellis} (h : Matches L n u t) {M m : ℕ} (h' : Matches M m t t')
    (hn : L + n ≤ m) : Matches (M + L) n u t' where
  le := h.le
  le' := by have := h'.le'; omega
  nodeRow_eq k hk := by
    rw [h.nodeRow_eq k hk, h'.nodeRow_eq (L + k) (by omega), Nat.add_assoc]
  transition_eq k hk := by
    rw [h.transition_eq k hk, h'.transition_eq (L + k) (by omega), Nat.add_assoc]

section Valid

variable (hu : u.Valid) (ht : t.Valid) (h : Matches L n u t)
include hu ht h

theorem width_eq {k : ℕ} (hk : k < n) : u.width k = t.width (L + k) := by
  rw [← hu.length_nodeRow, ← ht.length_nodeRow, h.nodeRow_eq k hk]

theorem edgeWeight_eq {k : ℕ} (hk : k + 1 < n) (i j : ℕ) :
    u.edgeWeight k i j = t.edgeWeight (L + k) i j := by
  have hwidth : u.width (k + 1) = t.width (L + k + 1) := by
    rw [h.width_eq hu ht hk, Nat.add_assoc]
  rw [edgeWeight, edgeWeight, List.getD_eq_getElem?_getD, List.getD_eq_getElem?_getD,
    h.transition_eq k hk, hwidth]

end Valid

theorem weights_eq (h : Matches L n u t) {k : ℕ} (hk : k + 1 < n) :
    u.weights k = t.weights (L + k) := by
  rw [weights, weights, layer, layer, h.transition_eq k hk]

end Matches

/-! ### The costs of matching layers -/

section Costs

open ViterbiSolver

variable {n : ℕ} {u t : Trellis} (hu : u.Valid) (ht : t.Valid) (h : Matches 0 n u t)
include hu ht h

theorem Matches.row_eq {k : ℕ} (hk : k < n) : row u k = row t k := by
  induction k with
  | zero =>
    have hrow := h.nodeRow_eq 0 hk
    rwa [Nat.zero_add] at hrow
  | succ k ih =>
    have hwidth := h.width_eq hu ht hk
    have hweights := h.weights_eq hk
    have hrow := h.nodeRow_eq (k + 1) hk
    rw [Nat.zero_add] at hwidth hweights hrow
    rw [row, row, ih (by omega), enter_boundaryAt, enter_boundaryAt, relaxed, relaxed, hwidth,
      hweights, hrow]

theorem Matches.cost_eq {k : ℕ} (hk : k < n) (j : ℕ) : cost u k j = cost t k j := by
  rw [cost, cost, h.row_eq hu ht hk]

theorem Matches.pred_eq {k : ℕ} (hk : k + 1 < n) (j : ℕ) : pred u k j = pred t k j := by
  have hwidth := h.width_eq hu ht hk
  have hweights := h.weights_eq hk
  rw [Nat.zero_add] at hwidth hweights
  rw [pred, pred, h.row_eq hu ht (by omega), hwidth, hweights]

end Costs

/-! ### Trellises matching in all layers -/

/-- The node buffer is the node weights of the layers, one after another. -/
theorem Valid.nodes_eq {t : Trellis} (hv : t.Valid) :
    t.nodes = (List.range t.layers).flatMap t.nodeRow := by
  have htake : ∀ k ≤ t.layers, t.nodes.take (t.offset k) = (List.range k).flatMap t.nodeRow := by
    intro k
    induction k with
    | zero => intro _; simp
    | succ k ih =>
      intro hk
      have hmono : t.offset k ≤ t.offset (k + 1) := t.offset_mono (Nat.le_succ _)
      rw [List.range_succ, List.flatMap_append, List.flatMap_singleton, ← ih (by omega), nodeRow,
        slice]
      conv_lhs => rw [← List.take_append_drop (t.offset k) (t.nodes.take (t.offset (k + 1)))]
      rw [List.take_take, Nat.min_eq_left hmono]
  have hall : t.offset t.layers = t.nodes.length := by
    rw [hv.nodes_length, offset, layers, List.take_length]
  rw [← htake t.layers le_rfl, hall, List.take_length]

/-- **Trellises matching in all layers are equal.** -/
theorem Valid.eq_of_matches {u t : Trellis} (hu : u.Valid) (ht : t.Valid)
    (hlayers : u.layers = t.layers) (h : Matches 0 u.layers u t) : u = t := by
  have hwidths : u.widths = t.widths := by
    apply List.ext_getElem hlayers
    intro k hk hk'
    have hwidth := h.width_eq hu ht hk
    rwa [Nat.zero_add, u.width_eq_get hk, t.width_eq_get hk'] at hwidth
  have hnodes : u.nodes = t.nodes := by
    rw [hu.nodes_eq, ht.nodes_eq, ← hlayers]
    refine List.flatMap_congr fun k hk => ?_
    have hrow := h.nodeRow_eq k (List.mem_range.mp hk)
    rwa [Nat.zero_add] at hrow
  have htransitions : u.transitions = t.transitions := by
    have hlen := hu.transitions_length
    have hlen' := ht.transitions_length
    apply List.ext_getElem?
    intro k
    rcases Nat.lt_or_ge (k + 1) u.layers with hk | hk
    · have htr := h.transition_eq k hk
      rwa [Nat.zero_add] at htr
    · rw [List.getElem?_eq_none (by omega), List.getElem?_eq_none (by omega)]
  cases u
  cases t
  simp_all

/-! ### Accepted calls -/

section Accept

variable {t : Trellis}

theorem addLayer_accept (t : Trellis) {width : ℕ} (h : 0 < width) :
    ∃ t', t.addLayer width = (.ok t.layers, t') :=
  ⟨_, by rw [addLayer, if_neg (by omega)]⟩

theorem fillNodes_accept {layer : ℕ} {weights : List ℕ} (hl : layer < t.layers)
    (hlen : weights.length = t.width layer) (hle : ∀ w ∈ weights, w ≤ maxWeight) :
    ∃ t', t.fillNodes layer weights = (.ok (), t') := by
  have hrange : weights.length = t.offset (layer + 1) - t.offset layer := by
    rw [hlen, offset_succ, Nat.add_sub_cancel_left]
  have hfind : (weights.find? fun w => decide (maxWeight < w)) = none := by
    rw [List.find?_eq_none]
    intro w hw
    simpa using hle w hw
  rw [fillNodes, t.nodeRange_eq hl]
  simp only [Range.len_mk, hrange, hfind, ne_eq, not_true_eq_false, if_false]
  exact ⟨_, rfl⟩

theorem fillTransition_accept {layer : ℕ} {rows : List ℕ} (hl : layer + 1 < t.layers)
    (hlen : rows.length = t.width layer * t.width (layer + 1))
    (hle : ∀ w ∈ rows, w = noEdge ∨ w ≤ maxWeight) :
    t.fillTransition layer rows = (.ok (), t.setTransition layer
      (.resolved (rows.map fun w => if w = noEdge then infW else w))) := by
  have hfind : (rows.find? fun w => w != noEdge && decide (maxWeight < w)) = none := by
    rw [List.find?_eq_none]
    intro w hw
    rcases hle w hw with h | h
    · simp [h]
    · simp [h]
  rw [fillTransition, if_neg (by omega)]
  simp only [hlen, hfind, ne_eq, not_true_eq_false, if_false]

theorem setEdge_accept {layer src dst weight : ℕ} (hw : weight ≤ maxWeight)
    (hl : layer + 1 < t.layers) (hsrc : src < t.width layer) (hdst : dst < t.width (layer + 1)) :
    t.setEdge layer src dst weight = (.ok (), t.setTransition layer
      ((t.edited layer).write (src * t.width (layer + 1) + dst) weight)) := by
  rw [setEdge, if_neg (by omega), if_neg (by omega), if_neg (by omega), if_neg (by omega)]
  rfl

theorem last_accept {n : ℕ} (hn : 0 < n) (ht : 0 < t.layers) : ∃ t', t.last n = .ok t' := by
  rw [last, partition, if_neg (by omega), if_neg (by omega), t.nodeRange_eq (by omega),
    t.nodeRange_eq (by omega)]
  exact ⟨_, rfl⟩

end Accept

/-! ### Appends -/

/-- A call that appends.  Layers are counted from the first appended one, and a
transition is named by the layer it enters. -/
inductive Append
  | addLayer (width : ℕ)
  | fillNodes (layer : ℕ) (weights : List ℕ)
  | fillTransition (layer : ℕ) (rows : List ℕ)
  | setEdge (layer src dst weight : ℕ)
  deriving Repr

/-- What an accepted call leaves behind. -/
def accepted {α : Type} : Except TrellisError α × Trellis → Option Trellis
  | (.ok _, t) => some t
  | (.error _, _) => none

/-- One append to a trellis that had `base` layers. -/
def Append.run (base : ℕ) (t : Trellis) : Append → Option Trellis
  | .addLayer width => accepted (t.addLayer width)
  | .fillNodes layer weights => accepted (t.fillNodes (base + layer) weights)
  | .fillTransition layer rows => accepted (t.fillTransition (base - 1 + layer) rows)
  | .setEdge layer src dst weight => accepted (t.setEdge (base - 1 + layer) src dst weight)

/-- Appends one after another; `none` as soon as one is refused. -/
def appendAll (base : ℕ) (t : Trellis) : List Append → Option Trellis
  | [] => some t
  | op :: ops => (op.run base t).bind fun t' => appendAll base t' ops

theorem accepted_eq_some {α : Type} {r : Except TrellisError α × Trellis} {t : Trellis} :
    accepted r = some t ↔ ∃ a, r = (.ok a, t) := by
  obtain ⟨r, t'⟩ := r
  cases r with
  | error e => simp [accepted]
  | ok a => simp [accepted]

/-- What an append that is accepted did. -/
theorem Append.run_cases {base : ℕ} {t t' : Trellis} {op : Append} (h : op.run base t = some t') :
    (∃ width id, op = .addLayer width ∧ t.addLayer width = (.ok id, t')) ∨
    (∃ layer weights, op = .fillNodes layer weights ∧
      t.fillNodes (base + layer) weights = (.ok (), t')) ∨
    (∃ layer rows, op = .fillTransition layer rows ∧
      t.fillTransition (base - 1 + layer) rows = (.ok (), t')) ∨
    (∃ layer src dst weight, op = .setEdge layer src dst weight ∧
      t.setEdge (base - 1 + layer) src dst weight = (.ok (), t')) := by
  cases op with
  | addLayer width =>
    obtain ⟨id, hop⟩ := accepted_eq_some.mp h
    exact Or.inl ⟨width, id, rfl, hop⟩
  | fillNodes layer weights =>
    obtain ⟨_, hop⟩ := accepted_eq_some.mp h
    exact Or.inr (Or.inl ⟨layer, weights, rfl, hop⟩)
  | fillTransition layer rows =>
    obtain ⟨_, hop⟩ := accepted_eq_some.mp h
    exact Or.inr (Or.inr (Or.inl ⟨layer, rows, rfl, hop⟩))
  | setEdge layer src dst weight =>
    obtain ⟨_, hop⟩ := accepted_eq_some.mp h
    exact Or.inr (Or.inr (Or.inr ⟨layer, src, dst, weight, rfl, hop⟩))

theorem Append.run_valid {base : ℕ} {t t' : Trellis} {op : Append} (hv : t.Valid)
    (h : op.run base t = some t') : t'.Valid := by
  rcases Append.run_cases h with ⟨_, _, -, h⟩ | ⟨_, _, -, h⟩ | ⟨_, _, -, h⟩ | ⟨_, _, _, _, -, h⟩
  · exact hv.addLayer h
  · exact hv.fillNodes h
  · exact hv.fillTransition h
  · exact hv.setEdge h

theorem appendAll_valid {base : ℕ} : ∀ {ops : List Append} {t t' : Trellis}, t.Valid →
    appendAll base t ops = some t' → t'.Valid := by
  intro ops
  induction ops with
  | nil =>
    intro t t' hv h
    cases h
    exact hv
  | cons op ops ih =>
    intro t t' hv h
    obtain ⟨t₁, h₁, h⟩ := Option.bind_eq_some_iff.mp h
    exact ih (op.run_valid hv h₁) h

/-! #### Appending keeps the layers there were -/

/-- Writing a transition at or above the window leaves the window alone. -/
theorem matches_setTransition {n : ℕ} {t : Trellis} (hn : n ≤ t.layers) {layer : ℕ}
    (hlayer : n ≤ layer + 1) (tr : Transition) : Matches 0 n t (t.setTransition layer tr) where
  le := hn
  le' := by rw [Nat.zero_add]; exact hn
  nodeRow_eq k _ := by rw [Nat.zero_add]; rfl
  transition_eq k hk := by
    rw [Nat.zero_add, setTransition, List.getElem?_set_ne (by omega)]

theorem Append.run_matches {base : ℕ} {t t' : Trellis} {op : Append} (hv : t.Valid)
    (hbase : 0 < base) (hle : base ≤ t.layers) (h : op.run base t = some t') :
    Matches 0 base t t' := by
  rcases Append.run_cases h with ⟨_, _, -, h⟩ | ⟨_, _, -, h⟩ | ⟨_, _, -, h⟩ | ⟨_, _, _, _, -, h⟩
  · obtain ⟨-, hlayers, hrow, -, htr⟩ := addLayer_view hv h
    have hlen := hv.transitions_length
    exact
      { le := hle
        le' := by omega
        nodeRow_eq := fun k hk => by rw [Nat.zero_add, hrow k (by omega)]
        transition_eq := fun k hk => by
          rw [Nat.zero_add, htr, List.getElem?_append_left (by omega)] }
  · obtain ⟨-, hlayers, -, hrow, htr⟩ := fillNodes_view hv h
    exact
      { le := hle
        le' := by omega
        nodeRow_eq := fun k hk => by rw [Nat.zero_add, hrow k (by omega)]
        transition_eq := fun k hk => by rw [Nat.zero_add, htr] }
  · obtain ⟨-, -, -, rfl⟩ := fillTransition_ok h
    exact matches_setTransition hle (by omega) _
  · obtain ⟨-, -, -, -, rfl⟩ := setEdge_ok h
    exact matches_setTransition hle (by omega) _

/-- **Appending leaves the layers that were there.** -/
theorem appendAll_matches {base : ℕ} (hbase : 0 < base) : ∀ {ops : List Append} {t t' : Trellis},
    t.Valid → base ≤ t.layers → appendAll base t ops = some t' → Matches 0 base t t' := by
  intro ops
  induction ops with
  | nil =>
    intro t t' _ hle h
    cases h
    exact ⟨hle, by rw [Nat.zero_add]; exact hle, fun k _ => by rw [Nat.zero_add],
      fun k _ => by rw [Nat.zero_add]⟩
  | cons op ops ih =>
    intro t t' hv hle h
    obtain ⟨t₁, h₁, h⟩ := Option.bind_eq_some_iff.mp h
    have hm := op.run_matches hv hbase hle h₁
    have hle₁ := hm.le'
    have hrest := ih (op.run_valid hv h₁) (by omega) h
    exact hm.trans hrest (by omega)

/-! #### Appending to a cut trellis -/

/-- `u` is `t` with its first `L` layers cut off. -/
structure IsCut (L : ℕ) (u t : Trellis) : Prop where
  matching : Matches L u.layers u t
  layers_eq : t.layers = L + u.layers

theorem IsCut.of_last {t cut : Trellis} {L : ℕ} (hL : L ≤ t.layers)
    (h : t.last (t.layers - L) = .ok cut) : IsCut L cut t := by
  obtain ⟨hlt, -, hlayers, hrow, htr⟩ := partition_view (last_ok h).2.2
  rw [show t.layers - (t.layers - L) = L by omega] at hlt hlayers hrow htr
  exact
    { matching :=
        { le := le_rfl
          le' := by omega
          nodeRow_eq := fun k hk => hrow k (by omega)
          transition_eq := fun k hk => htr k (by omega) }
      layers_eq := by omega }

theorem IsCut.setTransition {L : ℕ} {u t : Trellis} (hu : u.Valid) (ht : t.Valid)
    (h : IsCut L u t) (layer : ℕ) (tr : Transition) :
    IsCut L (u.setTransition layer tr) (t.setTransition (L + layer) tr) where
  matching :=
    { le := le_rfl
      le' := h.layers_eq.ge
      nodeRow_eq := h.matching.nodeRow_eq
      transition_eq := by
        intro k hk
        have hulen := hu.transitions_length
        have htlen := ht.transitions_length
        have hlayers := h.layers_eq
        have hk' : k + 1 < u.layers := hk
        by_cases heq : layer = k
        · subst heq
          simp only [Trellis.setTransition]
          rw [List.getElem?_set_self (by omega), List.getElem?_set_self (by omega)]
        · simp only [Trellis.setTransition]
          rw [List.getElem?_set_ne heq, List.getElem?_set_ne (by omega)]
          exact h.matching.transition_eq k hk }
  layers_eq := h.layers_eq

theorem IsCut.edited_eq {L : ℕ} {u t : Trellis} (hu : u.Valid) (ht : t.Valid) (h : IsCut L u t)
    {layer : ℕ} (hl : layer + 1 < u.layers) : u.edited layer = t.edited (L + layer) := by
  have hwidth := h.matching.width_eq hu ht (show layer < u.layers by omega)
  have hnext := h.matching.width_eq hu ht hl
  rw [edited, edited, List.getD_eq_getElem?_getD, List.getD_eq_getElem?_getD,
    h.matching.transition_eq layer hl, hwidth, hnext, Nat.add_assoc]

theorem IsCut.addLayer {L width id : ℕ} {u t t' : Trellis} (hu : u.Valid) (ht : t.Valid)
    (hcut : IsCut L u t) (h : t.addLayer width = (.ok id, t')) :
    ∃ u', u.addLayer width = (.ok u.layers, u') ∧ IsCut L u' t' := by
  have hlayers := hcut.layers_eq
  obtain ⟨u', hu'⟩ := u.addLayer_accept (addLayer_ok h).1
  obtain ⟨-, hlt, hrow, hnew, htr⟩ := addLayer_view ht h
  obtain ⟨-, hlt', hrow', hnew', htr'⟩ := addLayer_view hu hu'
  have hulen := hu.transitions_length
  have htlen := ht.transitions_length
  refine ⟨u', hu', ⟨le_rfl, by omega, fun k hk => ?_, fun k hk => ?_⟩, by omega⟩
  · rcases Nat.lt_or_ge k u.layers with hk' | hk'
    · rw [hrow' k hk', hrow (L + k) (by omega), hcut.matching.nodeRow_eq k hk']
    · obtain rfl : k = u.layers := by omega
      rw [hnew', ← hlayers, hnew]
  · rw [htr, htr']
    rcases Nat.lt_or_ge (k + 1) u.layers with hk' | hk'
    · rw [List.getElem?_append_left (by omega), List.getElem?_append_left (by omega)]
      exact hcut.matching.transition_eq k hk'
    · rw [List.getElem?_append_right (by omega), List.getElem?_append_right (by omega)]
      congr 1
      omega

theorem IsCut.fillNodes {L layer : ℕ} {weights : List ℕ} {u t t' : Trellis} (hu : u.Valid)
    (ht : t.Valid) (hcut : IsCut L u t) (h : t.fillNodes (L + layer) weights = (.ok (), t')) :
    ∃ u', u.fillNodes layer weights = (.ok (), u') ∧ IsCut L u' t' := by
  have hlayers := hcut.layers_eq
  obtain ⟨hl, hlen, hle, -⟩ := fillNodes_ok h
  have hl' : layer < u.layers := by omega
  rw [← hcut.matching.width_eq hu ht hl'] at hlen
  obtain ⟨u', hu'⟩ := fillNodes_accept hl' hlen hle
  obtain ⟨-, hlt, hself, hother, htr⟩ := fillNodes_view ht h
  obtain ⟨-, hlt', hself', hother', htr'⟩ := fillNodes_view hu hu'
  refine ⟨u', hu', ⟨le_rfl, by omega, fun k hk => ?_, fun k hk => ?_⟩, by omega⟩
  · by_cases hk' : k = layer
    · subst hk'
      rw [hself', hself]
    · rw [hother' k hk', hother (L + k) (by omega)]
      exact hcut.matching.nodeRow_eq k (by omega)
  · rw [htr, htr']
    exact hcut.matching.transition_eq k (by omega)

/-- A cut trellis accepts the append the whole one accepts, and stays a cut of it. -/
theorem IsCut.run {L base : ℕ} {u t t' : Trellis} {op : Append} (hu : u.Valid) (ht : t.Valid)
    (hcut : IsCut L u t) (hbase : 0 < base) (h : op.run (L + base) t = some t') :
    ∃ u', op.run base u = some u' ∧ IsCut L u' t' := by
  have hlayers := hcut.layers_eq
  rcases Append.run_cases h with ⟨width, _, rfl, hop⟩ | ⟨layer, weights, rfl, hop⟩ |
    ⟨layer, rows, rfl, hop⟩ | ⟨layer, src, dst, weight, rfl, hop⟩
  · obtain ⟨u', hu', hcut'⟩ := hcut.addLayer hu ht hop
    exact ⟨u', accepted_eq_some.mpr ⟨_, hu'⟩, hcut'⟩
  · rw [Nat.add_assoc] at hop
    obtain ⟨u', hu', hcut'⟩ := hcut.fillNodes hu ht hop
    exact ⟨u', accepted_eq_some.mpr ⟨_, hu'⟩, hcut'⟩
  · rw [show L + base - 1 + layer = L + (base - 1 + layer) by omega] at hop
    obtain ⟨hl, hlen, hle, rfl⟩ := fillTransition_ok hop
    have hl' : base - 1 + layer + 1 < u.layers := by omega
    rw [Nat.add_assoc L, ← hcut.matching.width_eq hu ht (show base - 1 + layer < u.layers by omega),
      ← hcut.matching.width_eq hu ht hl'] at hlen
    exact ⟨_, accepted_eq_some.mpr ⟨_, fillTransition_accept hl' hlen hle⟩,
      hcut.setTransition hu ht _ _⟩
  · rw [show L + base - 1 + layer = L + (base - 1 + layer) by omega] at hop
    obtain ⟨hw, hl, hsrc, hdst, rfl⟩ := setEdge_ok hop
    have hl' : base - 1 + layer + 1 < u.layers := by omega
    have hwidth := hcut.matching.width_eq hu ht (show base - 1 + layer < u.layers by omega)
    have hnext := hcut.matching.width_eq hu ht hl'
    rw [← Nat.add_assoc] at hnext
    rw [← hwidth] at hsrc
    rw [← hnext] at hdst ⊢
    rw [← hcut.edited_eq hu ht hl']
    exact ⟨_, accepted_eq_some.mpr ⟨_, setEdge_accept hw hl' hsrc hdst⟩,
      hcut.setTransition hu ht _ _⟩

/-- **A cut trellis accepts the same appends, and stays a cut.** -/
theorem appendAll_cut {L base : ℕ} (hbase : 0 < base) : ∀ {ops : List Append} {u t t' : Trellis},
    u.Valid → t.Valid → IsCut L u t → appendAll (L + base) t ops = some t' →
      ∃ u', appendAll base u ops = some u' ∧ IsCut L u' t' := by
  intro ops
  induction ops with
  | nil =>
    intro u t t' _ _ hcut h
    cases h
    exact ⟨u, rfl, hcut⟩
  | cons op ops ih =>
    intro u t t' hu ht hcut h
    obtain ⟨t₁, h₁, h⟩ := Option.bind_eq_some_iff.mp h
    obtain ⟨u₁, hu₁, hcut₁⟩ := hcut.run hu ht hbase h₁
    obtain ⟨u', hu', hcut'⟩ := ih (op.run_valid hu hu₁) (op.run_valid ht h₁) hcut₁ h
    exact ⟨u', by rw [appendAll, hu₁]; exact hu', hcut'⟩

end Trellis

end Routers
