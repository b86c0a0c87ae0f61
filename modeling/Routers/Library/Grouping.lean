import Mathlib.Data.List.Permutation
import Mathlib.Data.List.Perm.Subperm
import Mathlib.Data.List.Sigma
import Mathlib.Tactic

/-!
# Items by their positions

A list may hold an item more than once, so what becomes of its items is said of their positions.
The items where something holds of the position are a sublist; those that some positions have in
common with others are found there as often; and a list falls apart by the values of a function of
the position.

## Main definitions

* `Grouping.itemsAt` — the items at the positions where something holds.

## Main results

* `Grouping.flatMap_itemsAt_perm` — **the items for each of some values are those for any of them.**
* `Grouping.length_itemsAt_eq_iff` — all items are there when something holds everywhere.
* `Grouping.exists_pair_of_perm` — two items at other positions.
-/

namespace Grouping

variable {T K : Type} [DecidableEq K] {items : List T} {q q' : ℕ → Bool} {i j : ℕ} {x y : T}

/-- The items at the positions where something holds, in order. -/
def itemsAt (items : List T) (q : ℕ → Bool) : List T :=
  (items.zipIdx.filter fun p => q p.2).map Prod.fst

theorem mem_itemsAt : x ∈ itemsAt items q ↔ ∃ i, items[i]? = some x ∧ q i = true := by
  rw [itemsAt, List.mem_map]
  constructor
  · rintro ⟨⟨x, i⟩, h, rfl⟩
    obtain ⟨hmem, hq⟩ := List.mem_filter.mp h
    exact ⟨i, List.mem_zipIdx_iff_getElem?.mp hmem, hq⟩
  · rintro ⟨i, hi, hq⟩
    exact ⟨(x, i), List.mem_filter.mpr ⟨List.mem_zipIdx_iff_getElem?.mpr hi, hq⟩, rfl⟩

theorem itemsAt_congr (h : ∀ i < items.length, q i = q' i) :
    itemsAt items q = itemsAt items q' := by
  rw [itemsAt, itemsAt]
  exact congrArg _ (List.filter_congr fun p hp => h p.2 (List.snd_lt_of_mem_zipIdx hp))

/-- **All items are there exactly when the condition holds everywhere.** -/
theorem length_itemsAt_eq_iff :
    (itemsAt items q).length = items.length ↔ ∀ i < items.length, q i = true := by
  have hlength : items.length = items.zipIdx.length := List.length_zipIdx.symm
  rw [itemsAt, List.length_map, hlength, List.length_filter_eq_length_iff, ← hlength]
  constructor
  · intro h i hi
    exact h (items[i], i) (List.mem_zipIdx_iff_getElem?.mpr (List.getElem?_eq_getElem hi))
  · intro h p hp
    exact h p.2 (List.snd_lt_of_mem_zipIdx hp)

/-- **The items for each of some values** of a function of the position **are those for any of
them.** -/
theorem flatMap_itemsAt_perm (items : List T) (f : ℕ → K) {ks : List K} (hks : ks.Nodup) :
    (ks.flatMap fun k => itemsAt items fun i => f i = k).Perm
      (itemsAt items fun i => f i ∈ ks) := by
  induction ks with
  | nil => simp [itemsAt]
  | cons k ks ih =>
    obtain ⟨hk, hks⟩ := List.nodup_cons.mp hks
    rw [List.flatMap_cons]
    refine ((ih hks).append_left _).trans ?_
    rw [itemsAt, itemsAt, itemsAt, ← List.map_append]
    refine List.Perm.map _ (List.Perm.trans ?_ (List.filter_append_perm (fun p => f p.2 = k) _))
    rw [List.filter_filter, List.filter_filter]
    refine List.Perm.of_eq (congrArg₂ _ ?_ ?_)
    · refine List.filter_congr fun p _ => ?_
      by_cases h : f p.2 = k
      · simp [h]
      · simp [h]
    · refine List.filter_congr fun p _ => ?_
      by_cases h : f p.2 = k
      · simp [h, hk]
      · simp [h]

/-- The items with no value and those for each of some values are all of them exactly when the
positions have no other values. -/
theorem length_eq_iff (f : ℕ → Option K) {ks : List K} (hks : ks.Nodup) :
    (itemsAt items fun i => f i = none).length
          + (ks.map fun k => (itemsAt items fun i => f i = some k).length).sum = items.length ↔
      ∀ i < items.length, ∀ k, f i = some k → k ∈ ks := by
  have hnodup : (none :: ks.map some).Nodup :=
    List.nodup_cons.mpr ⟨by simp, hks.map (Option.some_injective K)⟩
  have hlength := (flatMap_itemsAt_perm items f hnodup).length_eq
  rw [List.flatMap_cons, List.length_append, List.length_flatMap, List.map_map] at hlength
  refine (Eq.congr_left hlength).trans (length_itemsAt_eq_iff.trans ?_)
  refine forall₂_congr fun i _ => ?_
  cases f i with
  | none => simp
  | some k => simp

/-- Two positions have their items at two others, where the items there are the same. -/
theorem exists_pair_of_perm (h : (itemsAt items q).Perm (itemsAt items q')) (hij : i ≠ j)
    (hi : items[i]? = some x) (hj : items[j]? = some y) (hqi : q i = true) (hqj : q j = true) :
    ∃ i' j', i' ≠ j' ∧ items[i']? = some x ∧ items[j']? = some y ∧ q' i' = true ∧ q' j' = true := by
  have hpair : [(x, i), (y, j)].Subperm (items.zipIdx.filter fun p => q p.2) := by
    refine List.Nodup.subperm (by simp [hij]) ?_
    intro p hp
    rw [List.mem_cons, List.mem_singleton] at hp
    rw [List.mem_filter, List.mem_zipIdx_iff_getElem?]
    rcases hp with rfl | rfl
    · exact ⟨hi, hqi⟩
    · exact ⟨hj, hqj⟩
  obtain ⟨l, hl, hsub⟩ := hpair
  have hitems : [x, y].Subperm (itemsAt items q') := by
    have hsubperm : [x, y].Subperm (itemsAt items q) :=
      ⟨l.map Prod.fst, hl.map Prod.fst, hsub.map Prod.fst⟩
    exact hsubperm.trans h.subperm
  obtain ⟨_, hl', hsub'⟩ := hitems
  obtain ⟨l', hl'', rfl⟩ := List.sublist_map_iff.mp hsub'
  have hnodup : (l'.map Prod.snd).Nodup :=
    (List.nodup_zipIdx_map_snd items).sublist ((hl''.trans List.filter_sublist).map Prod.snd)
  -- the two items stand at two positions, in one order or the other
  have hfound : ∀ x y, l'.map Prod.fst = [x, y] → ∃ i' j', i' ≠ j' ∧
      items[i']? = some x ∧ items[j']? = some y ∧ q' i' = true ∧ q' j' = true := by
    intro x y heq
    obtain ⟨⟨_, i'⟩, _, rfl, rfl, hrest⟩ := List.map_eq_cons_iff.mp heq
    obtain ⟨⟨_, j'⟩, _, rfl, rfl, hnil⟩ := List.map_eq_cons_iff.mp hrest
    obtain rfl := List.map_eq_nil_iff.mp hnil
    have hi' := List.mem_filter.mp (hl''.subset List.mem_cons_self)
    have hj' := List.mem_filter.mp (hl''.subset (List.mem_cons_of_mem _ List.mem_cons_self))
    have hne : i' ≠ j' := by simpa using hnodup
    exact ⟨i', j', hne, List.mem_zipIdx_iff_getElem?.mp hi'.1,
      List.mem_zipIdx_iff_getElem?.mp hj'.1, hi'.2, hj'.2⟩
  rcases List.perm_pair.mp hl' with heq | heq
  · exact hfound x y heq
  · obtain ⟨i', j', hne, hi', hj', hqi', hqj'⟩ := hfound y x heq
    exact ⟨j', i', hne.symm, hj', hi', hqj', hqi'⟩

end Grouping
