import Routers.Trellis.Basic
import Mathlib.Algebra.BigOperators.Group.List.Basic
import Mathlib.Data.List.GetD
import Mathlib.Tactic

/-!
# The representation invariant of the trellis

The three vectors of a trellis are positioned against each other by running sums
of widths.  `Trellis.Valid` says how; every accepted operation keeps it, so it
holds of every trellis a sequence of calls can produce.

## Main definitions

* `Trellis.offset`, `Trellis.nodeRow` — where a layer's nodes sit in the buffer.
* `Trellis.Valid` — the representation invariant.
* `Trellis.Reachable` — the trellises accepted calls produce.

## Main results

* `Trellis.Reachable.valid` — **every reachable trellis is valid.**

## References

`src/libs/routers_trellis/src/trellis.rs`.
-/

namespace Routers

/-! ### Slices -/

section Slice

variable {α : Type*}

theorem length_slice (l : List α) (r : Range) (h : r.stop ≤ l.length) :
    (slice l r).length = r.len := by
  simp [slice, Range.len, Nat.min_eq_left h]

theorem getElem?_slice (l : List α) {a b i : ℕ} (hi : a + i < b) :
    (slice l ⟨a, b⟩)[i]? = l[a + i]? := by
  rw [slice, List.getElem?_drop, List.getElem?_take_of_lt hi]

theorem getD_slice (l : List α) {a b i : ℕ} (d : α) (hi : a + i < b) :
    (slice l ⟨a, b⟩).getD i d = l.getD (a + i) d := by
  rw [List.getD_eq_getElem?_getD, List.getD_eq_getElem?_getD, getElem?_slice l hi]

theorem mem_of_mem_slice {l : List α} {r : Range} {x : α} (h : x ∈ slice l r) : x ∈ l :=
  List.mem_of_mem_take (List.mem_of_mem_drop h)

theorem slice_append_of_le (l l' : List α) {a b : ℕ} (hb : b ≤ l.length) :
    slice (l ++ l') ⟨a, b⟩ = slice l ⟨a, b⟩ := by
  rw [slice, slice, List.take_append_of_le_length hb]

/-- A slice of a slice. -/
theorem slice_slice (l : List α) {a b c d : ℕ} (hd : c + d ≤ b) :
    slice (slice l ⟨c, b⟩) ⟨a, d⟩ = slice l ⟨c + a, c + d⟩ := by
  apply List.ext_getElem?
  intro i
  simp only [slice, List.getElem?_drop, List.getElem?_take]
  split_ifs <;> first | rfl | omega | (congr 1; omega)

theorem length_copyFromSlice (l : List α) (r : Range) (src : List α) (hr : r.start ≤ r.stop)
    (hstop : r.stop ≤ l.length) (hsrc : src.length = r.len) :
    (copyFromSlice l r src).length = l.length := by
  simp only [copyFromSlice, List.length_append, List.length_take, List.length_drop, hsrc,
    Range.len]
  omega

/-- Reading back what was copied. -/
theorem slice_copyFromSlice_self (l : List α) {a b : ℕ} (src : List α) (hab : a ≤ b)
    (hb : b ≤ l.length) (hsrc : src.length = b - a) :
    slice (copyFromSlice l ⟨a, b⟩ src) ⟨a, b⟩ = src := by
  have ha : (l.take a).length = a := by simp; omega
  have hb' : b = (l.take a ++ src).length := by simp [ha, hsrc]; omega
  rw [slice, copyFromSlice]
  conv_lhs => rw [List.take_append_of_le_length (by rw [← hb']), List.take_of_length_le hb'.ge]
  rw [List.drop_left' ha]

/-- Copying leaves the positions outside the range alone. -/
theorem slice_copyFromSlice_of_disjoint (l : List α) {a b c d : ℕ} (src : List α) (hab : a ≤ b)
    (hb : b ≤ l.length) (hsrc : src.length = b - a) (h : d ≤ a ∨ b ≤ c) :
    slice (copyFromSlice l ⟨a, b⟩ src) ⟨c, d⟩ = slice l ⟨c, d⟩ := by
  apply List.ext_getElem?
  intro i
  simp only [slice, copyFromSlice, List.getElem?_drop, List.getElem?_take]
  split_ifs with hi
  · rcases h with h | h
    · rw [List.append_assoc, List.getElem?_append_left (by simp; omega),
        List.getElem?_take_of_lt (by omega)]
    · rw [List.getElem?_append_right (by simp; omega), List.getElem?_drop]
      congr 1
      simp
      omega
  · rfl

end Slice

/-! ### Running sums -/

theorem length_rangesFrom (start : ℕ) (widths : List ℕ) :
    (rangesFrom start widths).length = widths.length := by
  induction widths generalizing start with
  | nil => rfl
  | cons w ws ih => simp [rangesFrom, ih]

theorem getElem?_rangesFrom (start : ℕ) (widths : List ℕ) {k : ℕ} (hk : k < widths.length) :
    (rangesFrom start widths)[k]?
      = some ⟨start + (widths.take k).sum, start + (widths.take (k + 1)).sum⟩ := by
  induction widths generalizing start k with
  | nil => simp at hk
  | cons w ws ih =>
    cases k with
    | zero => simp [rangesFrom]
    | succ k =>
      rw [rangesFrom, List.getElem?_cons_succ, ih (start + w) (by simpa using hk)]
      simp [Nat.add_assoc]

theorem sum_take_le (l : List ℕ) (k : ℕ) : (l.take k).sum ≤ l.sum := by
  conv_rhs => rw [← List.take_append_drop k l, List.sum_append]
  omega

namespace Trellis

/-- Where the nodes of layer `k` begin in the node buffer. -/
def offset (t : Trellis) (k : ℕ) : ℕ := (t.widths.take k).sum

@[simp] theorem offset_zero (t : Trellis) : t.offset 0 = 0 := by simp [offset]

theorem offset_succ (t : Trellis) (k : ℕ) : t.offset (k + 1) = t.offset k + t.width k := by
  rw [offset, offset, width, List.getD_eq_getElem?_getD, List.take_add_one]
  cases h : t.widths[k]? <;> simp

theorem offset_le (t : Trellis) (k : ℕ) : t.offset k ≤ t.widths.sum := sum_take_le _ _

theorem offset_mono (t : Trellis) {j k : ℕ} (h : j ≤ k) : t.offset j ≤ t.offset k := by
  induction k, h using Nat.le_induction with
  | base => exact le_rfl
  | succ k _ ih => rw [offset_succ]; omega

theorem nodeRange_eq (t : Trellis) {k : ℕ} (hk : k < t.layers) :
    t.nodeRange k = .ok ⟨t.offset k, t.offset (k + 1)⟩ := by
  rw [nodeRange, layerRanges, getElem?_rangesFrom 0 t.widths hk]
  simp [offset]

theorem nodeRange_of_le (t : Trellis) {k : ℕ} (hk : t.layers ≤ k) :
    t.nodeRange k = .error (.layerOutOfRange k) := by
  rw [nodeRange, layerRanges, List.getElem?_eq_none (by rw [length_rangesFrom]; exact hk)]

/-- The node weights of layer `k`. -/
def nodeRow (t : Trellis) (k : ℕ) : List ℕ := slice t.nodes ⟨t.offset k, t.offset (k + 1)⟩

theorem nodeWeights_eq (t : Trellis) {k : ℕ} (hk : k < t.layers) :
    t.nodeWeights k = some (t.nodeRow k) := by
  rw [nodeWeights, t.nodeRange_eq hk]
  rfl

/-! ### The invariant -/

/-- The representation invariant. -/
structure Valid (t : Trellis) : Prop where
  layers_pos : 0 < t.layers
  width_pos : ∀ w ∈ t.widths, 0 < w
  nodes_length : t.nodes.length = t.widths.sum
  transitions_length : t.transitions.length + 1 = t.layers
  node_le : ∀ w ∈ t.nodes, w ≤ maxWeight
  weights_length : ∀ (k : ℕ) (weights : List ℕ), t.transitions[k]? = some (Transition.resolved weights) →
    weights.length = t.width k * t.width (k + 1)
  weights_le : ∀ (k : ℕ) (weights : List ℕ), t.transitions[k]? = some (Transition.resolved weights) →
    ∀ w ∈ weights, w ≤ maxWeight ∨ w = infW

theorem width_eq_get (t : Trellis) {k : ℕ} (hk : k < t.layers) :
    t.width k = t.widths.get ⟨k, hk⟩ := by
  rw [width, List.getD_eq_getElem t.widths 0 hk]
  rfl

namespace Valid

variable {t : Trellis} (h : t.Valid)
include h

theorem width_pos_of_lt {k : ℕ} (hk : k < t.layers) : 0 < t.width k := by
  rw [t.width_eq_get hk]
  exact h.width_pos _ (List.get_mem ..)

theorem length_nodeRow {k : ℕ} : (t.nodeRow k).length = t.width k := by
  rw [nodeRow, length_slice _ _ (by rw [h.nodes_length]; exact t.offset_le _), Range.len_mk,
    offset_succ, Nat.add_sub_cancel_left]

theorem nodeRow_le {k : ℕ} {w : ℕ} (hw : w ∈ t.nodeRow k) : w ≤ maxWeight :=
  h.node_le w (mem_of_mem_slice hw)

theorem nodeRow_getD_le (k : ℕ) (j : ℕ) : (t.nodeRow k).getD j 0 ≤ maxWeight := by
  rw [List.getD_eq_getElem?_getD]
  cases hj : (t.nodeRow k)[j]? with
  | none => exact Nat.zero_le _
  | some w => exact h.nodeRow_le (List.mem_of_getElem? hj)

end Valid

/-! ### What each operation does -/

section Ops

variable {t t' : Trellis}

theorem new_ok {widths : List ℕ} (h : Trellis.new widths = .ok t) :
    widths ≠ [] ∧ (∀ w ∈ widths, 0 < w) ∧
      t = ⟨widths, List.replicate widths.sum 0, List.replicate (widths.length - 1) .pending⟩ := by
  rw [Trellis.new] at h
  split_ifs at h with hnil
  split at h
  · cases h
  · next hfind =>
    refine ⟨by simpa using hnil, fun w hw => ?_, (Except.ok.inj h).symm⟩
    rw [List.findIdx?_eq_none_iff] at hfind
    have := hfind w hw
    simp only [beq_eq_false_iff_ne] at this
    omega

theorem addLayer_ok {width : ℕ} {id : ℕ} (h : t.addLayer width = (.ok id, t')) :
    0 < width ∧ id = t.layers ∧
      t' = ⟨t.widths ++ [width], t.nodes ++ List.replicate width 0,
        t.transitions ++ [.pending]⟩ := by
  rw [addLayer] at h
  split_ifs at h with hw
  · cases h
  · cases h
    exact ⟨by omega, rfl, rfl⟩

theorem markPending_ok {layer : ℕ} (h : t.markPending layer = (.ok (), t')) :
    layer < t.transitions.length ∧
      t' = t.setTransition layer .pending := by
  rw [markPending] at h
  split_ifs at h with hl
  · cases h
  · cases h
    exact ⟨by omega, rfl⟩

/-- The transition `setEdge` writes into: the layer's own, or a fresh one with
every edge absent. -/
def edited (t : Trellis) (layer : ℕ) : Transition :=
  (t.transitions.getD layer .pending).ensureResolved (t.width layer * t.width (layer + 1))

theorem setEdge_ok {layer : ℕ} {src dst : ℕ} {weight : ℕ}
    (h : t.setEdge layer src dst weight = (.ok (), t')) :
    weight ≤ maxWeight ∧ layer + 1 < t.layers ∧ src < t.width layer ∧ dst < t.width (layer + 1) ∧
      t' = t.setTransition layer
        ((t.edited layer).write (src * t.width (layer + 1) + dst) weight) := by
  rw [setEdge] at h
  simp only at h
  split_ifs at h with h1 h2 h3 h4 <;> cases h
  exact ⟨by omega, by omega, by omega, by omega, rfl⟩

theorem fillTransition_ok {layer : ℕ} {rows : List ℕ}
    (h : t.fillTransition layer rows = (.ok (), t')) :
    layer + 1 < t.layers ∧ rows.length = t.width layer * t.width (layer + 1) ∧
      (∀ w ∈ rows, w = noEdge ∨ w ≤ maxWeight) ∧
      t' = t.setTransition layer
        (.resolved (rows.map fun w => if w = noEdge then infW else w)) := by
  rw [fillTransition] at h
  simp only at h
  split_ifs at h with h1 h2
  · cases h
  · cases h
  · split at h
    · cases h
    · next hfind =>
      cases h
      refine ⟨by omega, by omega, fun w hw => ?_, rfl⟩
      rw [List.find?_eq_none] at hfind
      have := hfind w hw
      simp only [Bool.and_eq_true, bne_iff_ne, decide_eq_true_eq, not_and] at this
      by_cases hno : w = noEdge
      · exact Or.inl hno
      · exact Or.inr (by have := this hno; omega)

theorem fillNodes_ok {layer : ℕ} {weights : List ℕ}
    (h : t.fillNodes layer weights = (.ok (), t')) :
    layer < t.layers ∧ weights.length = t.width layer ∧ (∀ w ∈ weights, w ≤ maxWeight) ∧
      t' = { t with nodes :=
        copyFromSlice t.nodes ⟨t.offset layer, t.offset (layer + 1)⟩ weights } := by
  rw [fillNodes] at h
  rcases Nat.lt_or_ge layer t.layers with hl | hl
  · rw [t.nodeRange_eq hl] at h
    simp only at h
    split_ifs at h with h1
    · cases h
    · split at h
      · cases h
      · next hfind =>
        cases h
        refine ⟨hl, ?_, fun w hw => ?_, rfl⟩
        · rw [Range.len, offset_succ] at h1
          simp only [not_not] at h1
          omega
        · rw [List.find?_eq_none] at hfind
          have := hfind w hw
          simp only [decide_eq_true_eq] at this
          omega
  · rw [t.nodeRange_of_le hl] at h
    cases h

theorem partition_ok {start stop : ℕ} (h : t.partition start stop = .ok t') :
    start < stop ∧ stop ≤ t.layers ∧
      t' = ⟨slice t.widths ⟨start, stop⟩, slice t.nodes ⟨t.offset start, t.offset stop⟩,
        slice t.transitions ⟨start, stop - 1⟩⟩ := by
  rw [partition] at h
  split_ifs at h with h1 h2
  rw [t.nodeRange_eq (by omega), t.nodeRange_eq (by omega), Nat.sub_add_cancel (by omega)] at h
  cases h
  exact ⟨by omega, by omega, rfl⟩

theorem last_ok {n : ℕ} (h : t.last n = .ok t') :
    0 < n ∧ 0 < t.layers ∧ t.partition (t.layers - n) t.layers = .ok t' := by
  refine ⟨?_, ?_, h⟩ <;>
  · have := (partition_ok h).1
    omega

end Ops

/-! ### Every accepted operation keeps the invariant -/

section Keeps

variable {t t' : Trellis}

theorem new_valid {widths : List ℕ} (h : Trellis.new widths = .ok t) : t.Valid := by
  obtain ⟨hne, hpos, rfl⟩ := new_ok h
  have hlen : 0 < widths.length := List.length_pos_iff.mpr hne
  have hpending : ∀ (k : ℕ) (weights : List ℕ),
      (List.replicate (widths.length - 1) Transition.pending)[k]?
        ≠ some (Transition.resolved weights) := by
    intro k weights hk
    rw [List.getElem?_replicate] at hk
    split_ifs at hk
    cases hk
  exact
    { layers_pos := hlen
      width_pos := hpos
      nodes_length := List.length_replicate
      transitions_length := by simp only [List.length_replicate, layers]; omega
      node_le := fun w hw => by rw [List.eq_of_mem_replicate hw]; exact Nat.zero_le _
      weights_length := fun k weights hk => absurd hk (hpending k weights)
      weights_le := fun k weights hk => absurd hk (hpending k weights) }

theorem width_append (t : Trellis) {k : ℕ} (hk : k < t.layers) (ws : List ℕ)
    (ns : List ℕ) (trs : List Transition) :
    Trellis.width ⟨t.widths ++ ws, ns, trs⟩ k = t.width k := by
  simp only [width]
  rw [List.getD_append _ _ _ _ hk]

theorem Valid.addLayer (hv : t.Valid) {width : ℕ} {id : ℕ}
    (h : t.addLayer width = (.ok id, t')) : t'.Valid := by
  obtain ⟨hpos, -, rfl⟩ := addLayer_ok h
  have htr := hv.transitions_length
  -- a resolved transition of the longer trellis is one of the old ones
  have hold : ∀ (k : ℕ) (weights : List ℕ),
      (t.transitions ++ [Transition.pending])[k]? = some (Transition.resolved weights) →
      t.transitions[k]? = some (Transition.resolved weights) ∧ k + 1 < t.layers := by
    intro k weights hk
    rcases Nat.lt_or_ge k t.transitions.length with hlt | hge
    · rw [List.getElem?_append_left hlt] at hk
      exact ⟨hk, by omega⟩
    · rw [List.getElem?_append_right hge, List.getElem?_singleton] at hk
      split_ifs at hk
      cases hk
  exact
    { layers_pos := by simp [layers]
      width_pos := by
        intro w hw
        rcases List.mem_append.mp hw with hw | hw
        · exact hv.width_pos w hw
        · rwa [List.mem_singleton.mp hw]
      nodes_length := by simp [hv.nodes_length]
      transitions_length := by simp only [layers, List.length_append, List.length_singleton] at *; omega
      node_le := by
        intro w hw
        rcases List.mem_append.mp hw with hw | hw
        · exact hv.node_le w hw
        · rw [List.eq_of_mem_replicate hw]; exact Nat.zero_le _
      weights_length := by
        intro k weights hk
        obtain ⟨hk, hlt⟩ := hold k weights hk
        rw [width_append t (by omega), width_append t hlt]
        exact hv.weights_length k weights hk
      weights_le := fun k weights hk => hv.weights_le k weights (hold k weights hk).1 }

/-- Replacing one transition keeps the invariant when its weights fit. -/
theorem Valid.setTransition (hv : t.Valid) {layer : ℕ} {tr : Transition}
    (htr : ∀ weights, tr = .resolved weights →
      weights.length = t.width layer * t.width (layer + 1) ∧
        ∀ w ∈ weights, w ≤ maxWeight ∨ w = infW) :
    (t.setTransition layer tr).Valid := by
  have hcase : ∀ (k : ℕ) (weights : List ℕ),
      (t.transitions.set layer tr)[k]? = some (Transition.resolved weights) →
      (k = layer ∧ tr = .resolved weights) ∨
        t.transitions[k]? = some (Transition.resolved weights) := by
    intro k weights hk
    rw [List.getElem?_set] at hk
    split_ifs at hk with h1 h2
    · exact Or.inl ⟨h1.symm, Option.some.inj hk⟩
    · exact Or.inr hk
  exact
    { layers_pos := hv.layers_pos
      width_pos := hv.width_pos
      nodes_length := hv.nodes_length
      transitions_length := by
        rw [Trellis.setTransition, List.length_set]
        exact hv.transitions_length
      node_le := hv.node_le
      weights_length := by
        intro k weights hk
        rcases hcase k weights hk with ⟨rfl, htr'⟩ | hk
        · exact (htr weights htr').1
        · exact hv.weights_length k weights hk
      weights_le := by
        intro k weights hk
        rcases hcase k weights hk with ⟨-, htr'⟩ | hk
        · exact (htr weights htr').2
        · exact hv.weights_le k weights hk }

theorem Valid.markPending (hv : t.Valid) {layer : ℕ}
    (h : t.markPending layer = (.ok (), t')) : t'.Valid := by
  obtain ⟨-, rfl⟩ := markPending_ok h
  exact hv.setTransition fun weights htr => by cases htr

theorem Valid.edited (hv : t.Valid) (layer : ℕ) :
    ∃ weights, t.edited layer = .resolved weights ∧
      weights.length = t.width layer * t.width (layer + 1) ∧
        ∀ w ∈ weights, w ≤ maxWeight ∨ w = infW := by
  rw [Trellis.edited, List.getD_eq_getElem?_getD]
  have hfresh : ∃ weights, Transition.resolved
        (List.replicate (t.width layer * t.width (layer + 1)) infW) = .resolved weights ∧
      weights.length = t.width layer * t.width (layer + 1) ∧
        ∀ w ∈ weights, w ≤ maxWeight ∨ w = infW :=
    ⟨_, rfl, List.length_replicate, fun w hw => Or.inr (List.eq_of_mem_replicate hw)⟩
  cases htr : t.transitions[layer]? with
  | none => exact hfresh
  | some tr =>
    cases tr with
    | pending => exact hfresh
    | resolved weights =>
      exact ⟨weights, rfl, hv.weights_length layer weights htr, hv.weights_le layer weights htr⟩

theorem Valid.setEdge (hv : t.Valid) {layer : ℕ} {src dst : ℕ} {weight : ℕ}
    (h : t.setEdge layer src dst weight = (.ok (), t')) : t'.Valid := by
  obtain ⟨hw, -, -, -, rfl⟩ := setEdge_ok h
  obtain ⟨weights, htr, hlen, hle⟩ := hv.edited layer
  refine hv.setTransition fun weights' htr' => ?_
  rw [htr, Transition.write] at htr'
  cases htr'
  refine ⟨by rw [List.length_set]; exact hlen, fun w hw' => ?_⟩
  rcases List.mem_or_eq_of_mem_set hw' with hw' | rfl
  · exact hle w hw'
  · exact Or.inl hw

theorem Valid.fillTransition (hv : t.Valid) {layer : ℕ} {rows : List ℕ}
    (h : t.fillTransition layer rows = (.ok (), t')) : t'.Valid := by
  obtain ⟨-, hlen, hle, rfl⟩ := fillTransition_ok h
  refine hv.setTransition fun weights htr => ?_
  cases htr
  refine ⟨by rw [List.length_map]; exact hlen, fun w hw => ?_⟩
  obtain ⟨v, hv', rfl⟩ := List.mem_map.mp hw
  split_ifs with hno
  · exact Or.inr rfl
  · exact Or.inl ((hle v hv').resolve_left hno)

theorem Valid.fillNodes (hv : t.Valid) {layer : ℕ} {weights : List ℕ}
    (h : t.fillNodes layer weights = (.ok (), t')) : t'.Valid := by
  obtain ⟨hl, hlen, hle, rfl⟩ := fillNodes_ok h
  have hstop : t.offset (layer + 1) ≤ t.nodes.length := by
    rw [hv.nodes_length]; exact t.offset_le _
  exact
    { layers_pos := hv.layers_pos
      width_pos := hv.width_pos
      nodes_length := by
        rw [length_copyFromSlice _ _ _ (t.offset_mono (Nat.le_succ _)) hstop
          (by rw [Range.len_mk, offset_succ, hlen, Nat.add_sub_cancel_left])]
        exact hv.nodes_length
      transitions_length := hv.transitions_length
      node_le := by
        intro w hw
        simp only [copyFromSlice, List.mem_append] at hw
        rcases hw with (hw | hw) | hw
        · exact hv.node_le w (List.mem_of_mem_take hw)
        · exact hle w hw
        · exact hv.node_le w (List.mem_of_mem_drop hw)
      weights_length := hv.weights_length
      weights_le := hv.weights_le }

theorem width_slice (t : Trellis) {start stop k : ℕ} (hk : start + k < stop) (ns : List ℕ)
    (trs : List Transition) :
    Trellis.width ⟨slice t.widths ⟨start, stop⟩, ns, trs⟩ k = t.width (start + k) := by
  simp only [width]
  exact getD_slice _ _ hk

theorem sum_slice_widths (t : Trellis) {start stop : ℕ} (h : start ≤ stop) :
    (slice t.widths ⟨start, stop⟩).sum = t.offset stop - t.offset start := by
  have hsplit : t.widths.take stop = t.widths.take start ++ slice t.widths ⟨start, stop⟩ := by
    rw [slice]
    conv_lhs => rw [← List.take_append_drop start (t.widths.take stop)]
    rw [List.take_take, Nat.min_eq_left h]
  rw [offset, offset, hsplit, List.sum_append]
  omega

theorem Valid.partition (hv : t.Valid) {start stop : ℕ}
    (h : t.partition start stop = .ok t') : t'.Valid := by
  obtain ⟨hlt, hle, rfl⟩ := partition_ok h
  have htr := hv.transitions_length
  have hkeep : ∀ (k : ℕ) (weights : List ℕ),
      (slice t.transitions ⟨start, stop - 1⟩)[k]? = some (Transition.resolved weights) →
        t.transitions[start + k]? = some (Transition.resolved weights) ∧ start + k + 1 < stop := by
    intro k weights hk
    rcases Nat.lt_or_ge (start + k) (stop - 1) with hlt' | hge
    · rw [getElem?_slice _ hlt'] at hk
      exact ⟨hk, by omega⟩
    · rw [slice, List.getElem?_eq_none (by simp; omega)] at hk
      cases hk
  exact
    { layers_pos := by
        rw [layers, length_slice _ _ hle, Range.len_mk]
        omega
      width_pos := fun w hw => hv.width_pos w (mem_of_mem_slice hw)
      nodes_length := by
        rw [length_slice _ _ (by rw [hv.nodes_length]; exact t.offset_le _),
          sum_slice_widths t hlt.le]
        rfl
      transitions_length := by
        rw [layers, length_slice t.widths _ hle, length_slice t.transitions _ (by
          simp only; omega), Range.len_mk, Range.len_mk]
        omega
      node_le := fun w hw => hv.node_le w (mem_of_mem_slice hw)
      weights_length := by
        intro k weights hk
        obtain ⟨hk, hlt'⟩ := hkeep k weights hk
        rw [width_slice t (by omega), width_slice t (k := k + 1) (by omega)]
        exact hv.weights_length _ weights hk
      weights_le := fun k weights hk => hv.weights_le _ weights (hkeep k weights hk).1 }

theorem Valid.last (hv : t.Valid) {n : ℕ} (h : t.last n = .ok t') : t'.Valid :=
  hv.partition (last_ok h).2.2

end Keeps

/-! ### Reachable trellises -/

/-- The trellises that sequences of accepted calls produce. -/
inductive Reachable : Trellis → Prop
  | new {widths t} : Trellis.new widths = .ok t → Reachable t
  | addLayer {t t' width id} : Reachable t → t.addLayer width = (.ok id, t') → Reachable t'
  | setEdge {t t' layer src dst weight} : Reachable t →
      t.setEdge layer src dst weight = (.ok (), t') → Reachable t'
  | fillTransition {t t' layer rows} : Reachable t →
      t.fillTransition layer rows = (.ok (), t') → Reachable t'
  | fillNodes {t t' layer weights} : Reachable t →
      t.fillNodes layer weights = (.ok (), t') → Reachable t'
  | markPending {t t' layer} : Reachable t → t.markPending layer = (.ok (), t') → Reachable t'
  | partition {t t' start stop} : Reachable t → t.partition start stop = .ok t' → Reachable t'
  | last {t t' n} : Reachable t → t.last n = .ok t' → Reachable t'

/-- **Every reachable trellis is valid.** -/
theorem Reachable.valid {t : Trellis} (h : t.Reachable) : t.Valid := by
  induction h with
  | new h => exact new_valid h
  | addLayer _ h ih => exact ih.addLayer h
  | setEdge _ h ih => exact ih.setEdge h
  | fillTransition _ h ih => exact ih.fillTransition h
  | fillNodes _ h ih => exact ih.fillNodes h
  | markPending _ h ih => exact ih.markPending h
  | partition _ h ih => exact ih.partition h
  | last _ h ih => exact ih.last h

end Trellis

end Routers
