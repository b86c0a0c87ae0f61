import Mathlib.Algebra.Order.Monoid.Canonical.Defs
import Mathlib.Algebra.Order.Monoid.Defs
import Mathlib.Order.Basic
import Mathlib.Tactic

/-!
# Cheapest paths through a layered graph

A layered graph has edges only between adjacent layers and charges every node it
enters.  The layers are indexed by all of `ℕ`; a *horizon* `n` says how many of
them a computation has seen, so growing the graph by a layer is only looking one
horizon further, and everything decided below the old horizon stays decided.

Costs are taken in any linearly ordered cancellative monoid with a least element
`0`, against a threshold `inf`: an entry at or above `inf` is *dead*.  A dynamic
program that drops dead entries as it goes is described by what its table must
satisfy (`IsTable`), not by how it runs, so that any implementation refines it.

## Main definitions

* `Graph`, `Graph.cost`, `Graph.IsPath` — the graphs, their paths and the costs.
* `Graph.IsTable` — a pruned cost table together with its predecessors.
* `back` — the path read off a table backwards from a node.
* `RevLex`, `Graph.Precedes` — the order in which equal-cost paths are preferred.
* `Graph.Fused` — all live paths agree on a layer.

## Main results

* `Graph.IsTable.le_cost`, `Graph.IsTable.cost_back` — a live entry is the
  least cost of reaching its node, and the path read off attains it.
* `Graph.IsTable.best_precedes` — the path read off from the best final node
  comes first among all paths, in cost and then in `RevLex`.
* `Graph.IsTable.fused_mono` — a fused layer stays fused as the graph grows.
* `Graph.IsTable.cut_agrees_iff` — when restarting at a fused layer gives the
  same continuation.
-/

namespace Layered

/-- A graph of layers: `width k` nodes in layer `k`, the cost `node k j` of
entering node `j` of layer `k`, and the cost `edge k i j` of the edge from node
`i` of layer `k` to node `j` of layer `k + 1`. -/
structure Graph (α : Type*) where
  width : ℕ → ℕ
  node : ℕ → ℕ → α
  edge : ℕ → ℕ → ℕ → α

/-! ### Reading a path backwards -/

/-- `back pred n j` is the path ending at node `j` of layer `n` that follows
`pred` backwards; `pred k j` names a node of layer `k` for node `j` of layer
`k + 1`. -/
def back (pred : ℕ → ℕ → ℕ) : ℕ → ℕ → ℕ → ℕ
  | 0, j, _ => j
  | n + 1, j, k => if n + 1 ≤ k then j else back pred n (pred n j) k

@[simp] theorem back_self (pred : ℕ → ℕ → ℕ) (n j : ℕ) : back pred n j n = j := by
  cases n <;> simp [back]

theorem back_succ_of_le (pred : ℕ → ℕ → ℕ) {n k : ℕ} (j : ℕ) (h : k ≤ n) :
    back pred (n + 1) j k = back pred n (pred n j) k := by
  rw [back, if_neg (by omega)]

/-- A path read back from layer `n` is, below a layer `m` on its way, the path
read back from the node it has there. -/
theorem back_back (pred : ℕ → ℕ → ℕ) {n m k : ℕ} (hm : m ≤ n) (hk : k ≤ m) (j : ℕ) :
    back pred n j k = back pred m (back pred n j m) k := by
  induction n generalizing j with
  | zero =>
    obtain rfl : m = 0 := by omega
    rfl
  | succ n ih =>
    rcases Nat.lt_or_ge n m with h | h
    · obtain rfl : m = n + 1 := by omega
      rw [back_self]
    · rw [back_succ_of_le pred j (hk.trans h), back_succ_of_le pred j h]
      exact ih h (pred n j)

/-- Paths read back depend only on the predecessors below the horizon. -/
theorem back_congr {pred pred' : ℕ → ℕ → ℕ} {n : ℕ} (h : ∀ k < n, ∀ j, pred k j = pred' k j)
    (j k : ℕ) : back pred n j k = back pred' n j k := by
  induction n generalizing j with
  | zero => rfl
  | succ n ih =>
    rw [back, back, h n (by omega), ih fun k hk => h k (by omega)]

/-! ### The reversed lexicographic order on paths -/

/-- `RevLex n p q`: at the last of the layers `0, …, n` where the paths `p` and
`q` differ, `p` has the lower node. -/
def RevLex (n : ℕ) (p q : ℕ → ℕ) : Prop :=
  ∃ m ≤ n, p m < q m ∧ ∀ k, m < k → k ≤ n → p k = q k

/-- `p` and `q` name the same node of every layer through `n`. -/
def Agree (n : ℕ) (p q : ℕ → ℕ) : Prop := ∀ k ≤ n, p k = q k

theorem RevLex.not_agree {n : ℕ} {p q : ℕ → ℕ} (h : RevLex n p q) : ¬ Agree n p q := by
  obtain ⟨m, hm, hlt, -⟩ := h
  intro hag
  exact hlt.ne (hag m hm)

theorem RevLex.asymm {n : ℕ} {p q : ℕ → ℕ} (h : RevLex n p q) : ¬ RevLex n q p := by
  obtain ⟨m, hm, hlt, heq⟩ := h
  rintro ⟨m', hm', hlt', heq'⟩
  rcases lt_trichotomy m m' with hmm | rfl | hmm
  · exact hlt'.ne (heq m' hmm hm').symm
  · exact hlt.not_gt hlt'
  · exact hlt.ne (heq' m hmm hm).symm

theorem RevLex.trans {n : ℕ} {p q r : ℕ → ℕ} (h : RevLex n p q) (h' : RevLex n q r) :
    RevLex n p r := by
  obtain ⟨m, hm, hlt, heq⟩ := h
  obtain ⟨m', hm', hlt', heq'⟩ := h'
  rcases lt_trichotomy m m' with hmm | rfl | hmm
  · exact ⟨m', hm', (heq m' hmm hm').trans_lt hlt',
      fun k hk hkn => (heq k (hmm.trans hk) hkn).trans (heq' k hk hkn)⟩
  · exact ⟨m, hm, hlt.trans hlt', fun k hk hkn => (heq k hk hkn).trans (heq' k hk hkn)⟩
  · exact ⟨m, hm, hlt.trans_eq (heq' m hmm hm),
      fun k hk hkn => (heq k hk hkn).trans (heq' k (hmm.trans hk) hkn)⟩

theorem RevLex.congr_left {n : ℕ} {p p' q : ℕ → ℕ} (h : RevLex n p q) (hp : Agree n p p') :
    RevLex n p' q := by
  obtain ⟨m, hm, hlt, heq⟩ := h
  refine ⟨m, hm, ?_, fun k hk hkn => ?_⟩
  · rwa [← hp m hm]
  · rw [← hp k hkn]
    exact heq k hk hkn

namespace Graph

variable {α : Type*}

/-- `p` names a node of every layer through `n`. -/
def IsPath (G : Graph α) (n : ℕ) (p : ℕ → ℕ) : Prop := ∀ k ≤ n, p k < G.width k

/-- The graph from layer `L` on, its layers renumbered from `0`. -/
def drop (G : Graph α) (L : ℕ) : Graph α where
  width k := G.width (L + k)
  node k := G.node (L + k)
  edge k := G.edge (L + k)

/-- Nodes of the first layer that nothing tells apart but their number. -/
structure Twins (G : Graph α) (c d : ℕ) : Prop where
  node_eq : G.node 0 c = G.node 0 d
  edge_eq : ∀ j < G.width 1, G.edge 0 c j = G.edge 0 d j

theorem Twins.symm {G : Graph α} {c d : ℕ} (h : G.Twins c d) : G.Twins d c where
  node_eq := h.node_eq.symm
  edge_eq j hj := (h.edge_eq j hj).symm

/-- A path with another node of the first layer. -/
theorem IsPath.update_zero {G : Graph α} {n : ℕ} {p : ℕ → ℕ} (h : G.IsPath n p) {d : ℕ}
    (hd : d < G.width 0) : G.IsPath n (Function.update p 0 d) := by
  intro k hk
  rcases Nat.eq_zero_or_pos k with rfl | hpos
  · rwa [Function.update_self]
  · rw [Function.update_of_ne hpos.ne']
    exact h k hk

section Cost

variable [AddCommMonoid α] (G : Graph α)

/-- The cost of the path `p` through layer `n`: its first node, then each edge
and the node it enters. -/
def cost (p : ℕ → ℕ) : ℕ → α
  | 0 => G.node 0 (p 0)
  | n + 1 => cost p n + G.edge n (p n) (p (n + 1)) + G.node (n + 1) (p (n + 1))

/-- What the path `p` costs on the `m` layers after layer `L`. -/
def tail (L : ℕ) (p : ℕ → ℕ) : ℕ → α
  | 0 => 0
  | m + 1 => tail L p m + G.edge (L + m) (p (L + m)) (p (L + m + 1))
      + G.node (L + m + 1) (p (L + m + 1))

variable {G}

theorem cost_congr {n : ℕ} {p q : ℕ → ℕ} (h : Agree n p q) : G.cost p n = G.cost q n := by
  induction n with
  | zero => rw [cost, cost, h 0 le_rfl]
  | succ n ih =>
    rw [cost, cost, ih fun k hk => h k (by omega), h n (by omega), h (n + 1) le_rfl]

/-- A path costs no more where none of its nodes and edges does. -/
theorem cost_le_cost [PartialOrder α] [IsOrderedAddMonoid α] {H : Graph α} {n : ℕ} {p : ℕ → ℕ}
    (hnode : ∀ k ≤ n, H.node k (p k) ≤ G.node k (p k))
    (hedge : ∀ k < n, H.edge k (p k) (p (k + 1)) ≤ G.edge k (p k) (p (k + 1))) :
    H.cost p n ≤ G.cost p n := by
  induction n with
  | zero => exact hnode 0 le_rfl
  | succ n ih =>
    have hbefore := ih (fun k hk => hnode k (by omega)) fun k hk => hedge k (by omega)
    exact add_le_add (add_le_add hbefore (hedge n (by omega))) (hnode (n + 1) le_rfl)

/-- A path may start at a twin at the same cost. -/
theorem Twins.cost_update {c d : ℕ} (h : G.Twins c d) {n : ℕ} {p : ℕ → ℕ} (hp : G.IsPath n p)
    (hp0 : p 0 = c) : G.cost (Function.update p 0 d) n = G.cost p n := by
  induction n with
  | zero => rw [cost, cost, Function.update_self, hp0, h.node_eq]
  | succ n ih =>
    have hstep : G.edge n (Function.update p 0 d n) (p (n + 1)) = G.edge n (p n) (p (n + 1)) := by
      rcases Nat.eq_zero_or_pos n with rfl | hpos
      · rw [Function.update_self, hp0, h.edge_eq _ (hp 1 le_rfl)]
      · rw [Function.update_of_ne hpos.ne']
    rw [cost, cost, ih fun k hk => hp k (by omega), Function.update_of_ne (Nat.succ_ne_zero n),
      hstep]

/-- A path pays at least its last node. -/
theorem node_le_cost [PartialOrder α] [CanonicallyOrderedAdd α] (n : ℕ) (p : ℕ → ℕ) :
    G.node n (p n) ≤ G.cost p n := by
  cases n with
  | zero => exact le_rfl
  | succ n =>
    rw [cost]
    exact le_add_self

/-- A path pays at least each of its edges. -/
theorem edge_le_cost [PartialOrder α] [CanonicallyOrderedAdd α] {n k : ℕ} (hk : k < n) (p : ℕ → ℕ) :
    G.edge k (p k) (p (k + 1)) ≤ G.cost p n := by
  induction n with
  | zero => cases hk
  | succ n ih =>
    rw [cost]
    rcases Nat.lt_succ_iff_lt_or_eq.mp hk with hlt | rfl
    · exact (ih hlt).trans (le_self_add.trans le_self_add)
    · exact le_add_self.trans le_self_add

/-- A path's cost splits at any layer. -/
theorem cost_add (L : ℕ) (p : ℕ → ℕ) (m : ℕ) :
    G.cost p (L + m) = G.cost p L + G.tail L p m := by
  induction m with
  | zero => rw [Nat.add_zero, tail, add_zero]
  | succ m ih =>
    rw [← Nat.add_assoc, cost, ih, tail]
    abel

/-- A path costs no less the further it goes. -/
theorem cost_mono [PartialOrder α] [CanonicallyOrderedAdd α] {m n : ℕ} (h : m ≤ n) (p : ℕ → ℕ) :
    G.cost p m ≤ G.cost p n := by
  obtain ⟨l, rfl⟩ := Nat.exists_eq_add_of_le h
  rw [cost_add]
  exact le_self_add

/-- A path of the graph from layer `L` on pays its first node and the same tail. -/
theorem cost_drop (L : ℕ) (p : ℕ → ℕ) (m : ℕ) :
    (G.drop L).cost (fun k => p (L + k)) m = G.node L (p L) + G.tail L p m := by
  induction m with
  | zero => simp [cost, drop, tail]
  | succ m ih =>
    rw [cost, ih, tail]
    simp only [drop, Nat.add_assoc]
    abel

end Cost

variable [AddCommMonoid α] [LinearOrder α]

/-- `p` is preferred to `q` through layer `n`: it is cheaper, or costs the same
and comes first in `RevLex`. -/
def Precedes (G : Graph α) (n : ℕ) (p q : ℕ → ℕ) : Prop :=
  G.cost p n < G.cost q n ∨ G.cost p n = G.cost q n ∧ RevLex n p q

variable {G : Graph α} {n : ℕ} {p q : ℕ → ℕ}

theorem Precedes.le (h : G.Precedes n p q) : G.cost p n ≤ G.cost q n :=
  h.elim le_of_lt fun h => h.1.le

theorem Precedes.asymm (h : G.Precedes n p q) : ¬ G.Precedes n q p := by
  rcases h with h | ⟨heq, h⟩
  · rintro (h' | ⟨heq', -⟩)
    · exact h.not_gt h'
    · exact h.ne heq'.symm
  · rintro (h' | ⟨-, h'⟩)
    · exact h'.ne heq.symm
    · exact h.asymm h'

theorem Precedes.congr_left {p' : ℕ → ℕ} (h : G.Precedes n p q) (hp : Agree n p p') :
    G.Precedes n p' q := by
  rw [Precedes, ← cost_congr hp]
  exact h.imp id fun h => ⟨h.1, h.2.congr_left hp⟩

theorem Precedes.not_agree (h : G.Precedes n p q) : ¬ Agree n p q := by
  intro hag
  rcases h with h | ⟨-, h⟩
  · exact h.ne (cost_congr hag)
  · exact h.not_agree hag

/-- A pruned cost table `D` for the layers through `N`, with the predecessors a
backward reading follows.  Only edges whose running cost stays below `inf` take
part; a live entry is exactly what its predecessor offers, and the predecessor
is the first of the nodes offering least. -/
structure IsTable (G : Graph α) (inf : α) (N : ℕ) (D : ℕ → ℕ → α) (pred : ℕ → ℕ → ℕ) :
    Prop where
  start : ∀ j < G.width 0, D 0 j = G.node 0 j
  relax : ∀ k < N, ∀ i < G.width k, ∀ j < G.width (k + 1), D k i + G.edge k i j < inf →
    D (k + 1) j ≤ D k i + G.edge k i j + G.node (k + 1) j
  pred_lt : ∀ k < N, ∀ j < G.width (k + 1), D (k + 1) j < inf → pred k j < G.width k
  pred_eq : ∀ k < N, ∀ j < G.width (k + 1), D (k + 1) j < inf →
    D (k + 1) j = D k (pred k j) + G.edge k (pred k j) j + G.node (k + 1) j
  pred_first : ∀ k < N, ∀ j < G.width (k + 1), D (k + 1) j < inf → ∀ i < G.width k,
    D k i + G.edge k i j ≤ D k (pred k j) + G.edge k (pred k j) j → pred k j ≤ i

/-- `f` is the first of the nodes of layer `n` with the least entry, and live. -/
structure IsBest (G : Graph α) (inf : α) (D : ℕ → ℕ → α) (n f : ℕ) : Prop where
  lt : f < G.width n
  live : D n f < inf
  le : ∀ j < G.width n, D n f ≤ D n j
  first : ∀ j < G.width n, D n j ≤ D n f → f ≤ j

/-- Every live node of layer `n` is reached through node `c` of layer `k`. -/
def Fused (G : Graph α) (inf : α) (D : ℕ → ℕ → α) (pred : ℕ → ℕ → ℕ) (n k c : ℕ) : Prop :=
  ∀ j < G.width n, D n j < inf → back pred n j k = c

namespace IsTable

variable {inf : α} {N : ℕ} {D : ℕ → ℕ → α} {pred : ℕ → ℕ → ℕ}

/-- A table through a horizon is a table through every earlier one. -/
theorem mono (T : G.IsTable inf N D pred) {M : ℕ} (h : M ≤ N) : G.IsTable inf M D pred where
  start := T.start
  relax k hk := T.relax k (by omega)
  pred_lt k hk := T.pred_lt k (by omega)
  pred_eq k hk := T.pred_eq k (by omega)
  pred_first k hk := T.pred_first k (by omega)

variable [CanonicallyOrderedAdd α] (T : G.IsTable inf N D pred)
include T

/-! ### Reading back from a live node -/

theorem pred_offer_lt {k j : ℕ} (hk : k < N) (hj : j < G.width (k + 1)) (h : D (k + 1) j < inf) :
    D k (pred k j) + G.edge k (pred k j) j < inf :=
  lt_of_le_of_lt le_self_add (T.pred_eq k hk j hj h ▸ h)

theorem pred_live {k j : ℕ} (hk : k < N) (hj : j < G.width (k + 1)) (h : D (k + 1) j < inf) :
    D k (pred k j) < inf :=
  lt_of_le_of_lt le_self_add (T.pred_offer_lt hk hj h)

/-- The path read back from a live node stays among live nodes. -/
theorem back_live (hn : n ≤ N) {j : ℕ} (hj : j < G.width n) (h : D n j < inf) {k : ℕ}
    (hk : k ≤ n) : back pred n j k < G.width k ∧ D k (back pred n j k) < inf := by
  induction n generalizing j with
  | zero =>
    obtain rfl : k = 0 := by omega
    exact ⟨hj, h⟩
  | succ n ih =>
    rcases Nat.lt_or_ge n k with hk' | hk'
    · obtain rfl : k = n + 1 := by omega
      rw [back_self]
      exact ⟨hj, h⟩
    · rw [back_succ_of_le pred j hk']
      exact ih (by omega) (T.pred_lt n (by omega) j hj h) (T.pred_live (by omega) hj h) hk'

theorem isPath_back (hn : n ≤ N) {j : ℕ} (hj : j < G.width n) (h : D n j < inf) :
    G.IsPath n (back pred n j) :=
  fun _ hk => (T.back_live hn hj h hk).1

/-- **The path read back from a live node attains its entry.** -/
theorem cost_back (hn : n ≤ N) {j : ℕ} (hj : j < G.width n) (h : D n j < inf) :
    G.cost (back pred n j) n = D n j := by
  induction n generalizing j with
  | zero => exact (T.start j hj).symm
  | succ n ih =>
    have hpred := ih (by omega) (T.pred_lt n (by omega) j hj h) (T.pred_live (by omega) hj h)
    have hag : Agree n (back pred (n + 1) j) (back pred n (pred n j)) :=
      fun k hk => back_succ_of_le pred j hk
    rw [cost, cost_congr hag, hpred, hag n le_rfl, back_self, back_self,
      T.pred_eq n (by omega) j hj h]

/-! ### Fused layers -/

/-- **A fused layer stays fused as the graph grows**: every live path to a later
horizon is live at the earlier one. -/
theorem fused_mono {M k c : ℕ} (hMN : M ≤ N) (hnM : n ≤ M) (hk : k ≤ n)
    (h : G.Fused inf D pred n k c) : G.Fused inf D pred M k c := by
  intro j hj hlive
  obtain ⟨hlt, hl⟩ := T.back_live hMN hj hlive hnM
  rw [back_back pred hnM hk]
  exact h _ hlt hl

/-! ### A live entry is the least cost of reaching its node -/

variable [IsOrderedCancelAddMonoid α]

/-- No path below the threshold is cheaper than the entry of the node it ends at. -/
theorem le_cost (hn : n ≤ N) (hp : G.IsPath n p) (h : G.cost p n < inf) :
    D n (p n) ≤ G.cost p n := by
  induction n with
  | zero => exact (T.start _ (hp 0 le_rfl)).le
  | succ n ih =>
    have hedge : G.cost p n + G.edge n (p n) (p (n + 1)) < inf := lt_of_le_of_lt le_self_add h
    have hle : D n (p n) ≤ G.cost p n :=
      ih (by omega) (fun k hk => hp k (by omega)) (lt_of_le_of_lt le_self_add hedge)
    have hstep : D n (p n) + G.edge n (p n) (p (n + 1))
        ≤ G.cost p n + G.edge n (p n) (p (n + 1)) := by gcongr
    calc D (n + 1) (p (n + 1))
        ≤ D n (p n) + G.edge n (p n) (p (n + 1)) + G.node (n + 1) (p (n + 1)) :=
          T.relax n (by omega) _ (hp n (by omega)) _ (hp _ le_rfl) (hstep.trans_lt hedge)
      _ ≤ G.cost p (n + 1) := by rw [cost]; gcongr

/-! ### Ties -/

/-- Among the paths that attain a live entry, the one read back comes first. -/
theorem back_first (hn : n ≤ N) {j : ℕ} (hj : j < G.width n) (h : D n j < inf)
    (hp : G.IsPath n p) (hpj : p n = j) (hle : G.cost p n ≤ D n j) :
    Agree n (back pred n j) p ∨ RevLex n (back pred n j) p := by
  induction n generalizing j with
  | zero =>
    refine Or.inl fun k hk => ?_
    obtain rfl : k = 0 := by omega
    rw [hpj, back_self]
  | succ n ih =>
    have hpn := hp n (by omega)
    have hcost : G.cost p (n + 1) < inf := hle.trans_lt h
    have hedge : G.cost p n + G.edge n (p n) (p (n + 1)) < inf :=
      lt_of_le_of_lt le_self_add hcost
    have hDp : D n (p n) ≤ G.cost p n :=
      T.le_cost (by omega) (fun k hk => hp k (by omega)) (lt_of_le_of_lt le_self_add hedge)
    -- the path's prefix must itself attain the entry it passes
    have hrelax := T.pred_eq n (by omega) j hj h
    have hoffer : D n (p n) + G.edge n (p n) j ≤ D n (pred n j) + G.edge n (pred n j) j := by
      rw [cost, hpj, hrelax] at hle
      have : G.cost p n + G.edge n (p n) j ≤ D n (pred n j) + G.edge n (pred n j) j :=
        le_of_add_le_add_right hle
      exact le_trans (by gcongr) this
    have hprefix : G.cost p n ≤ D n (p n) := by
      rw [cost, hpj] at hle
      have hup := T.relax n (by omega) (p n) hpn j hj
        (hoffer.trans_lt (T.pred_offer_lt (by omega) hj h))
      exact le_of_add_le_add_right (le_of_add_le_add_right (hle.trans hup))
    rcases (T.pred_first n (by omega) j hj h (p n) hpn hoffer).lt_or_eq with hlt | heq
    · refine Or.inr ⟨n, by omega, ?_, fun k hk hkn => ?_⟩
      · rw [back_succ_of_le pred j le_rfl, back_self]
        exact hlt
      · obtain rfl : k = n + 1 := by omega
        rw [back_self, hpj]
    · -- the same predecessor: the layers below decide
      have hag : ∀ k ≤ n, back pred (n + 1) j k = back pred n (p n) k := fun k hk => by
        rw [back_succ_of_le pred j hk, heq]
      have htop : back pred (n + 1) j (n + 1) = p (n + 1) := by rw [back_self, hpj]
      rcases ih (by omega) hpn (hDp.trans_lt (lt_of_le_of_lt le_self_add hedge))
        (fun k hk => hp k (by omega)) rfl hprefix with hA | ⟨m, hm, hlt, hkeep⟩
      · refine Or.inl fun k hk => ?_
        rcases Nat.lt_or_ge n k with hk' | hk'
        · obtain rfl : k = n + 1 := by omega
          exact htop
        · rw [hag k hk', hA k hk']
      · refine Or.inr ⟨m, by omega, ?_, fun k hk hkn => ?_⟩
        · rw [hag m hm]
          exact hlt
        · rcases Nat.lt_or_ge n k with hk' | hk'
          · obtain rfl : k = n + 1 := by omega
            exact htop
          · rw [hag k hk', hkeep k hk hk']

/-- No path is cheaper than the best final entry. -/
theorem best_le (hn : n ≤ N) {f : ℕ} (hf : G.IsBest inf D n f) (hp : G.IsPath n p) :
    D n f ≤ G.cost p n := by
  rcases lt_or_ge (G.cost p n) inf with h | h
  · exact (hf.le _ (hp n le_rfl)).trans (T.le_cost hn hp h)
  · exact hf.live.le.trans h

/-- **The path read back from the best final node comes first among all paths.** -/
theorem best_precedes (hn : n ≤ N) {f : ℕ} (hf : G.IsBest inf D n f) (hp : G.IsPath n p) :
    Agree n (back pred n f) p ∨ G.Precedes n (back pred n f) p := by
  have hcost := T.cost_back hn hf.lt hf.live
  rcases (T.best_le hn hf hp).lt_or_eq with hlt | heq
  · exact Or.inr (Or.inl (hcost.trans_lt hlt))
  · have hDp : D n (p n) ≤ D n f :=
      (T.le_cost hn hp (heq.symm.trans_lt hf.live)).trans heq.ge
    rcases (hf.first _ (hp n le_rfl) hDp).lt_or_eq with hlt | hfp
    · refine Or.inr (Or.inr ⟨hcost.trans heq, n, le_rfl, ?_, by omega⟩)
      rwa [back_self]
    · rcases T.back_first hn hf.lt hf.live hp hfp.symm heq.ge with hag | hrev
      · exact Or.inl hag
      · exact Or.inr (Or.inr ⟨hcost.trans heq, hrev⟩)

/-! ### Continuations -/

/-- The continuation of the best path from a fused layer on comes first among
the continuations from the same node. -/
theorem continuation_precedes {L m c f : ℕ} (hN : L + m ≤ N)
    (hf : G.IsBest inf D (L + m) f) (hc : back pred (L + m) f L = c) {q : ℕ → ℕ}
    (hq : (G.drop L).IsPath m q) (hq0 : q 0 = c) :
    Agree m (fun k => back pred (L + m) f (L + k)) q
      ∨ (G.drop L).Precedes m (fun k => back pred (L + m) f (L + k)) q := by
  set b := back pred (L + m) f with hb
  -- splice: the best path up to `L`, then `q`
  let r : ℕ → ℕ := fun k => if k ≤ L then b k else q (k - L)
  have hrL : ∀ k, r (L + k) = q k := by
    intro k
    rcases Nat.eq_zero_or_pos k with rfl | hk
    · simp only [r, Nat.add_zero, le_refl, if_true, hc, hq0]
    · simp only [r, if_neg (show ¬ L + k ≤ L by omega), Nat.add_sub_cancel_left]
  have hrb : Agree L r b := fun k hk => if_pos hk
  have hbpath := T.isPath_back hN hf.lt hf.live
  have hrpath : G.IsPath (L + m) r := by
    intro k hk
    rcases Nat.lt_or_ge L k with h | h
    · obtain ⟨i, rfl⟩ := Nat.exists_eq_add_of_le h.le
      rw [hrL]
      exact hq i (by omega)
    · rw [hrb k h]
      exact hbpath k hk
  have hqcost : (G.drop L).cost q m = G.node L (b L) + G.tail L r m := by
    rw [← cost_congr (fun k _ => hrL k), cost_drop, hrb L le_rfl]
  have hbcost := cost_drop (G := G) L b m
  have hrcost : G.cost r (L + m) = G.cost b L + G.tail L r m := by
    rw [cost_add, cost_congr hrb]
  have hbcost' : G.cost b (L + m) = G.cost b L + G.tail L b m := cost_add L b m
  rcases T.best_precedes hN hf hrpath with hag | hlt | ⟨heq, x, hx, hxlt, hxeq⟩
  · exact Or.inl fun k hk => (hag (L + k) (by omega)).trans (hrL k)
  · refine Or.inr (Or.inl ?_)
    rw [hrcost, hbcost'] at hlt
    rw [hqcost, hbcost]
    exact add_lt_add_right (lt_of_add_lt_add_left hlt) _
  · have htail : G.tail L b m = G.tail L r m := by
      rw [hrcost, hbcost'] at heq
      exact add_left_cancel heq
    have hxL : L < x := by
      by_contra hle
      exact hxlt.ne (hrb x (by omega)).symm
    obtain ⟨y, rfl⟩ := Nat.exists_eq_add_of_le hxL.le
    refine Or.inr (Or.inr ⟨by rw [hqcost, hbcost, htail], y, by omega, ?_, fun k hk hkm => ?_⟩)
    · rw [← hrL y]
      exact hxlt
    · rw [← hrL k]
      exact hxeq (L + k) (by omega) (by omega)

/-- **When restarting at a fused layer gives the same continuation.**  `u` is
the path the restarted computation chooses on the graph from layer `L` on; it is
the continuation of the best path exactly when it starts at the fused node. -/
theorem cut_agrees_iff {L m c f : ℕ} (hN : L + m ≤ N) (hf : G.IsBest inf D (L + m) f)
    (hc : back pred (L + m) f L = c) {u : ℕ → ℕ} (hu : (G.drop L).IsPath m u)
    (hfirst : ∀ q, (G.drop L).IsPath m q → Agree m u q ∨ (G.drop L).Precedes m u q) :
    Agree m u (fun k => back pred (L + m) f (L + k)) ↔ u 0 = c := by
  have hpath : (G.drop L).IsPath m (fun k => back pred (L + m) f (L + k)) :=
    fun k hk => T.isPath_back hN hf.lt hf.live (L + k) (by omega)
  constructor
  · intro hag
    exact (hag 0 (Nat.zero_le m)).trans hc
  · intro hu0
    rcases T.continuation_precedes hN hf hc hu hu0 with h | h
    · exact fun k hk => (h k hk).symm
    · rcases hfirst _ hpath with h' | h'
      · exact h'
      · exact absurd h' h.asymm

/-- **Restarting at a twin of the fused node.**  The path `u` that the restarted computation
chooses is the continuation of the best path behind the first layer, if nothing but the
number tells its first node from the fused one. -/
theorem cut_agrees_of_twins {L m c f : ℕ} (hN : L + m ≤ N) (hf : G.IsBest inf D (L + m) f)
    (hc : back pred (L + m) f L = c) {u : ℕ → ℕ} (hu : (G.drop L).IsPath m u)
    (hfirst : ∀ q, (G.drop L).IsPath m q → Agree m u q ∨ (G.drop L).Precedes m u q)
    (htwins : (G.drop L).Twins (u 0) c) {k : ℕ} (hk : 0 < k) (hkm : k ≤ m) :
    u k = back pred (L + m) f (L + k) := by
  set b : ℕ → ℕ := fun k => back pred (L + m) f (L + k) with hb
  have hpath : (G.drop L).IsPath m b :=
    fun k hk => T.isPath_back hN hf.lt hf.live (L + k) (by omega)
  have hb0 : b 0 = c := hc
  -- each of the two paths with the other's first node
  have hwidth := hpath 0 (Nat.zero_le m)
  rw [hb0] at hwidth
  have hub := hu.update_zero hwidth
  have hbu := hpath.update_zero (hu 0 (Nat.zero_le m))
  have hcost := htwins.cost_update hu rfl
  have hcost' := htwins.symm.cost_update hpath hb0
  have hkeep : ∀ (p : ℕ → ℕ) (d : ℕ) {k : ℕ}, 0 < k → Function.update p 0 d k = p k :=
    fun p d k hk => Function.update_of_ne hk.ne' d p
  rcases T.continuation_precedes hN hf hc hub (Function.update_self 0 c u) with hag | hprec
  · exact ((hag k hkm).trans (hkeep u c hk)).symm
  rcases hfirst _ hbu with hag | hprec'
  · exact (hag k hkm).trans (hkeep b (u 0) hk)
  -- both are cheapest, and each would have the lower node where the two last differ
  exfalso
  have hle := hprec.le
  have hle' := hprec'.le
  rw [hcost] at hle
  rw [hcost'] at hle'
  rcases hprec with hlt | ⟨-, x, hx, hxlt, hxeq⟩
  · rw [hcost] at hlt
    exact hlt.not_ge hle'
  rcases hprec' with hlt | ⟨-, y, hy, hylt, hyeq⟩
  · rw [hcost'] at hlt
    exact hlt.not_ge hle
  have hx0 : 0 < x := by
    by_contra h0
    obtain rfl : x = 0 := by omega
    rw [Function.update_self] at hxlt
    exact hxlt.ne hc
  have hy0 : 0 < y := by
    by_contra h0
    obtain rfl : y = 0 := by omega
    rw [Function.update_self] at hylt
    exact hylt.ne rfl
  rw [hkeep u c hx0] at hxlt
  rw [hkeep b (u 0) hy0] at hylt
  rcases lt_trichotomy x y with hxy | rfl | hxy
  · have heq := hxeq y hxy hy
    rw [hkeep u c hy0] at heq
    exact hylt.ne heq.symm
  · exact hxlt.not_gt hylt
  · have heq := hyeq x hxy hx
    rw [hkeep b (u 0) hx0] at heq
    exact hxlt.ne heq.symm

/-- The continuation of the best path stays below the threshold. -/
theorem cost_continuation_lt {L m f : ℕ} (hN : L + m ≤ N) (hf : G.IsBest inf D (L + m) f) :
    (G.drop L).cost (fun k => back pred (L + m) f (L + k)) m < inf := by
  rw [cost_drop]
  refine lt_of_le_of_lt ?_ ((T.cost_back hN hf.lt hf.live).trans_lt hf.live)
  rw [cost_add]
  gcongr
  exact node_le_cost L _

end IsTable

end Graph

end Layered
