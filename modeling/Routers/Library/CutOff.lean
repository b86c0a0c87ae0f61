import Mathlib.Data.List.TakeWhile
import Routers.Library.CheapestFirst

/-!
# Cutting an enumeration off

A graph is enumerated in the order of one measure, and cut off at the first item that is too far by
another.  What is left are the nodes within reach if, as far as that, the first measure puts nothing
worse by the second before anything better: a way to a node costs more than the parts of a shorter
one, and a way past the reach more than any within it.

## Main definitions

* `CostGraph.Way`, `CostGraph.Nearest` — the lengths of paths, and the least of them.
* `CostGraph.Trail`, `CostGraph.Near` — a simple path with its length and cost, and a nearest one
  within reach.
* `CostGraph.Agrees` — costs agree with lengths as far as the reach.

## Main results

* `CostGraph.Enumerates.near_or_past` — what is taken next is near, or nothing within reach is left.
* `CostGraph.Enumerates.mem_takeWhile_iff` — **where costs agree with lengths, an enumeration that
  is cut off takes the nodes within reach.**
-/

namespace CostGraph

variable {V C K : Type*} [LinearOrder K] (G : CostGraph V C K) (len : C → ℕ)

/-- The lengths of the paths from `root`. -/
inductive Way (root : V) : V → ℕ → Prop
  | nil : Way root root 0
  | snoc {u v n m} : Way root u n → G.Move u v m → Way root v (n + len m)

/-- A path from `root` is this long, and none is shorter. -/
structure Nearest (root v : V) (n : ℕ) : Prop where
  way : G.Way len root v n
  le : ∀ n', G.Way len root v n' → n ≤ n'

/-- Some path to the node is shorter than `reach`. -/
def InReach (reach : ℕ) (root v : V) : Prop := ∃ n < reach, G.Way len root v n

/-- The simple paths from `root`, with the nodes visited, the length, and the cost. -/
inductive Trail (root : V) : V → List V → ℕ → C → Prop
  | nil : Trail root root [root] 0 G.zero
  | snoc {u v visited n c m} : Trail root u visited n c → G.Move u v m → v ∉ visited →
      Trail root v (v :: visited) (n + len m) (G.add c m)

/-- A simple path within reach that none is shorter than. -/
structure Near (reach : ℕ) (root v : V) (visited : List V) (n : ℕ) (c : C) : Prop where
  trail : G.Trail len root v visited n c
  nearest : G.Nearest len root v n
  lt : n < reach

/-- Costs agree with lengths as far as the reach. -/
structure Agrees (reach : ℕ) (root : V) : Prop where
  /-- One move further, the cost still tells the length. -/
  length : ∀ {u v visited n c m}, G.Near len reach root u visited n c → G.Move u v m →
    v ∉ visited → len (G.add c m) = n + len m
  /-- A move to a node that is not in reach leads to a greater cost than a nearest path has. -/
  past : ∀ {w visited' n' c' u v visited n c m}, G.Near len reach root w visited' n' c' →
    G.Near len reach root u visited n c → G.Move u v m → v ∉ visited →
    ¬ G.InReach len reach root v → G.key c' < G.key (G.add c m)
  /-- A move to a node by a detour leads to a greater cost than the nearest paths have that go on
  to that node the nearest way. -/
  detour : ∀ {w visited' n' c' u v visited n c m k}, G.Near len reach root w visited' n' c' →
    G.Near len reach root u visited n c → G.Move u v m → v ∉ visited →
    G.Way len w v k → G.Nearest len root v (n' + k) → n' + k < reach → n' + k < n + len m →
    G.key c' < G.key (G.add c m)

variable {G len} {reach : ℕ} {root : V}

/-! ### Lengths -/

section Lengths

omit [LinearOrder K]

theorem Trail.way {v : V} {visited : List V} {n : ℕ} {c : C}
    (h : G.Trail len root v visited n c) : G.Way len root v n := by
  induction h with
  | nil => exact .nil
  | snoc _ hm _ ih => exact ih.snoc hm

theorem Way.exists_nearest {v : V} {n : ℕ} (h : G.Way len root v n) :
    ∃ k ≤ n, G.Nearest len root v k := by
  classical
  have hex : ∃ k, G.Way len root v k := ⟨n, h⟩
  exact ⟨Nat.find hex, Nat.find_min' hex h, Nat.find_spec hex, fun k hk => Nat.find_min' hex hk⟩

theorem Nearest.unique {v : V} {n k : ℕ} (h : G.Nearest len root v n)
    (h' : G.Nearest len root v k) : n = k :=
  le_antisymm (h.le k h'.way) (h'.le n h.way)

/-- The part of a nearest path is nearest. -/
theorem Nearest.of_move {u v : V} {n : ℕ} {m : C} (hway : G.Way len root u n)
    (hm : G.Move u v m) (h : G.Nearest len root v (n + len m)) : G.Nearest len root u n :=
  ⟨hway, fun _ hway' => Nat.le_of_add_le_add_right (h.le _ (hway'.snoc hm))⟩

end Lengths

omit [LinearOrder K] in
theorem near_root (h : 0 < reach) : G.Near len reach root root [root] 0 G.zero :=
  ⟨.nil, ⟨.nil, fun _ _ => Nat.zero_le _⟩, h⟩

/-- The cost of a nearest path tells its length. -/
theorem Agrees.len_eq (hagrees : G.Agrees len reach root) (hzero : len G.zero = 0) {v : V}
    {visited : List V} {n : ℕ} {c : C} (h : G.Near len reach root v visited n c) : len c = n := by
  obtain ⟨htrail, hnearest, hlt⟩ := h
  cases htrail with
  | nil => exact hzero
  | snoc htrail hm hnew =>
    exact hagrees.length ⟨htrail, hnearest.of_move htrail.way hm, by omega⟩ hm hnew

/-! ### What is taken -/

section Taken

variable {taken before after : List (V × C)} {x : V × C}

/-- An item has been taken along a nearest path through items taken. -/
def NearThrough (G : CostGraph V C K) (len : C → ℕ) (reach : ℕ) (root : V) (before : List (V × C))
    (x : V × C) : Prop :=
  ∃ visited ⊆ before.map Prod.fst, ∃ n, G.Near len reach root x.1 visited n x.2

omit [LinearOrder K] in
/-- While what is taken is near, a node within reach and not yet taken has a nearest path of which
a part is offered. -/
theorem Nearest.frontier (hbefore : ∀ y ∈ before, G.NearThrough len reach root before y) {v : V}
    {n : ℕ} (h : G.Nearest len root v n) (hlt : n < reach) (hv : v ∉ before.map Prod.fst) :
    ∃ o visited k j, G.Offered root before o ∧ o.1 ∉ before.map Prod.fst ∧
      G.Near len reach root o.1 visited k o.2 ∧ G.Way len o.1 v j ∧ k + j = n := by
  obtain ⟨hway, -⟩ := id h
  induction hway with
  | nil => exact ⟨(root, G.zero), _, 0, 0, Or.inl rfl, hv, near_root hlt, .nil, rfl⟩
  | @snoc u v n m hu hm ih =>
    have hnearest := h.of_move hu hm
    by_cases hmem : u ∈ before.map Prod.fst
    · -- the next node on the path is offered
      obtain ⟨y, hy, rfl⟩ := List.mem_map.mp hmem
      obtain ⟨visited, hvisited, n', hnear⟩ := hbefore y hy
      obtain rfl := hnearest.unique hnear.nearest
      have hnew : v ∉ visited := fun hmem => hv (hvisited hmem)
      exact ⟨(v, G.add y.2 m), _, n + len m, 0, Or.inr ⟨y, hy, m, hm, rfl⟩, hv,
        ⟨hnear.trail.snoc hm hnew, h, hlt⟩, .nil, Nat.add_zero _⟩
    · obtain ⟨o, visited, k, j, hoffered, hfresh, hnear, hrest, hsum⟩ :=
        ih hnearest (by omega) hmem
      exact ⟨o, visited, k, j + len m, hoffered, hfresh, hnear, hrest.snoc hm, by omega⟩

/-- **What is taken next**, while what is taken is near, is near too, or it is not in reach, and
then nothing within reach is left. -/
theorem Enumerates.near_or_past (h : G.Enumerates root taken) (hagrees : G.Agrees len reach root)
    (heq : taken = before ++ x :: after)
    (hbefore : ∀ y ∈ before, G.NearThrough len reach root before y) :
    G.NearThrough len reach root (before ++ [x]) x ∨
      (reach ≤ len x.2 ∧ ∀ w, G.InReach len reach root w → w ∈ before.map Prod.fst) := by
  have hnext : ∀ visited, visited ⊆ before.map Prod.fst →
      x.1 :: visited ⊆ (before ++ [x]).map Prod.fst := by
    intro visited hvisited
    simp only [List.map_append, List.map_cons, List.map_nil]
    exact List.cons_subset.mpr ⟨by simp, List.subset_append_of_subset_left _ hvisited⟩
  rcases h.offered before x after heq with rfl | ⟨y, hy, m, hm, hcost⟩
  · obtain rfl | hpos := Nat.eq_zero_or_pos reach
    · exact Or.inr ⟨Nat.zero_le _, fun w ⟨n, hn, _⟩ => absurd hn (Nat.not_lt_zero n)⟩
    · exact Or.inl ⟨[root], hnext [] (List.nil_subset _), 0, near_root hpos⟩
  obtain ⟨visited, hvisited, n, hnear⟩ := hbefore y hy
  have hfresh := h.fresh heq
  have hnew : x.1 ∉ visited := fun hmem => hfresh (hvisited hmem)
  have hway := hnear.trail.way.snoc hm
  -- no offer to a node that is left is cheaper
  have hleast : ∀ o, G.Offered root before o → o.1 ∉ before.map Prod.fst →
      ¬ G.key o.2 < G.key (G.add y.2 m) := fun o ho hleft => by
    rw [← hcost]
    exact (h.least before x after heq o ho hleft).not_gt
  by_cases hreach : G.InReach len reach root x.1
  · left
    obtain ⟨k', hk', hway'⟩ := hreach
    obtain ⟨k, hk, hnearest⟩ := hway'.exists_nearest
    obtain heq' | hlt := (hnearest.le _ hway).eq_or_lt
    · rw [heq'] at hnearest hk
      refine ⟨x.1 :: visited, hnext visited hvisited, n + len m, ?_, hnearest, by omega⟩
      rw [hcost]
      exact hnear.trail.snoc hm hnew
    · -- a detour costs more than what is offered on a nearest path
      obtain ⟨o, visited', n', j, hoffered, hleft, ho, hrest, hsum⟩ :=
        hnearest.frontier hbefore (by omega) hfresh
      rw [← hsum] at hnearest
      exact absurd (hagrees.detour ho hnear hm hnew hrest hnearest (by omega) (by omega))
        (hleast o hoffered hleft)
  · right
    constructor
    · rw [hcost, hagrees.length hnear hm hnew]
      by_contra hlt
      exact hreach ⟨_, not_le.mp hlt, hway⟩
    · intro w ⟨k', hk', hway'⟩
      by_contra hleft
      obtain ⟨k, hk, hnearest⟩ := hway'.exists_nearest
      obtain ⟨o, visited', n', j, hoffered, hleft, ho, -, -⟩ :=
        hnearest.frontier hbefore (by omega) hleft
      exact absurd (hagrees.past ho hnear hm hnew hreach) (hleast o hoffered hleft)

omit [LinearOrder K] in
theorem NearThrough.mono (h : G.NearThrough len reach root before x)
    (hsubset : before ⊆ after) : G.NearThrough len reach root after x := by
  obtain ⟨visited, hvisited, n, hnear⟩ := h
  exact ⟨visited, List.Subset.trans hvisited (List.map_subset _ hsubset), n, hnear⟩

/-- Until something is too far, all is taken along nearest paths. -/
theorem Enumerates.near_of_lt (h : G.Enumerates root taken) (hagrees : G.Agrees len reach root)
    (before : List (V × C)) : ∀ after, taken = before ++ after →
      (∀ x ∈ before, len x.2 < reach) → ∀ y ∈ before, G.NearThrough len reach root before y := by
  induction before using List.reverseRecOn with
  | nil => simp
  | append_singleton before x ih =>
    intro after heq hlt y hy
    rw [List.append_assoc, List.singleton_append] at heq
    have hbefore := ih (x :: after) heq fun y hy => hlt y (List.mem_append_left _ hy)
    rcases List.mem_append.mp hy with hy | hy
    · exact (hbefore y hy).mono (List.subset_append_left _ _)
    · rw [List.mem_singleton.mp hy]
      refine (h.near_or_past hagrees heq hbefore).resolve_right fun hpast => ?_
      exact absurd (hlt x (by simp)) hpast.1.not_gt

/-- What paths lead to is taken. -/
theorem Enumerates.mem_of_way (h : G.Enumerates root taken) {v : V} {n : ℕ}
    (hway : G.Way len root v n) : v ∈ taken.map Prod.fst := by
  induction hway with
  | nil => exact h.exhausted (root, G.zero) (Or.inl rfl)
  | @snoc u v n m _ hm ih =>
    obtain ⟨x, hx, rfl⟩ := List.mem_map.mp ih
    exact h.exhausted (v, G.add x.2 m) (Or.inr ⟨x, hx, m, hm, rfl⟩)

/-- **Where costs agree with lengths as far as the reach, an enumeration that is cut off at the
first item that is too far takes the nodes within reach.** -/
theorem Enumerates.mem_takeWhile_iff (h : G.Enumerates root taken)
    (hagrees : G.Agrees len reach root) (hzero : len G.zero = 0) (v : V) :
    v ∈ (taken.takeWhile fun x => len x.2 < reach).map Prod.fst ↔ G.InReach len reach root v := by
  set kept := taken.takeWhile fun x => len x.2 < reach with hkept
  set rest := taken.dropWhile fun x => len x.2 < reach with hrest
  have heq : taken = kept ++ rest := List.takeWhile_append_dropWhile.symm
  have hlt : ∀ x ∈ kept, len x.2 < reach := fun x hx => by
    simpa using List.mem_takeWhile_imp hx
  have hnear := h.near_of_lt hagrees kept rest heq hlt
  constructor
  · intro hv
    obtain ⟨x, hx, rfl⟩ := List.mem_map.mp hv
    obtain ⟨visited, -, n, hx⟩ := hnear x hx
    exact ⟨n, hx.lt, hx.trail.way⟩
  · rintro ⟨n, hn, hway⟩
    cases hcut : rest with
    | nil =>
      rw [hcut, List.append_nil] at heq
      exact heq ▸ h.mem_of_way hway
    | cons x after =>
      -- the first item that is not kept is too far
      have hfar : ¬ len x.2 < reach := by
        have hhead := List.head?_dropWhile_not (fun x => len x.2 < reach) taken
        rw [← hrest, hcut] at hhead
        simpa using hhead
      rw [hcut] at heq
      obtain ⟨visited, -, k, hx⟩ | ⟨-, hall⟩ := h.near_or_past hagrees heq hnear
      · exact absurd (hagrees.len_eq hzero hx ▸ hx.lt) hfar
      · exact hall v ⟨n, hn, hway⟩

end Taken

end CostGraph
