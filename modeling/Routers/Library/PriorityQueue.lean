import Mathlib.Data.List.Basic
import Mathlib.Data.List.Perm.Basic
import Mathlib.Tactic

/-!
# Priority queues

A priority queue is known by the items it holds and by what `pop` does: it removes an
item of least key.  Which one among equal keys is left open, as it is for a binary
heap, so what is proved of a queue holds for every way of breaking ties.

## Main definitions

* `PriorityQueue` — a queue whose `pop` removes an item of least key.
* `PriorityQueue.ofList` — the queue kept as an unordered list.
-/

/-- A priority queue of `α`s, least `key` first. -/
structure PriorityQueue (α : Type) (key : α → ℕ) where
  Carrier : Type
  items : Carrier → List α
  empty : Carrier
  push : Carrier → α → Carrier
  pop : Carrier → Option (α × Carrier)
  items_empty : items empty = []
  items_push : ∀ q x, (items (push q x)).Perm (x :: items q)
  pop_none : ∀ q, pop q = none → items q = []
  pop_some : ∀ q x q', pop q = some (x, q') →
    (items q).Perm (x :: items q') ∧ ∀ y ∈ items q, key x ≤ key y

namespace PriorityQueue

section Laws

variable {α : Type} {key : α → ℕ} (queue : PriorityQueue α key)

theorem mem_items_push {q : queue.Carrier} {x y : α} :
    y ∈ queue.items (queue.push q x) ↔ y = x ∨ y ∈ queue.items q := by
  rw [(queue.items_push q x).mem_iff, List.mem_cons]

variable {queue} {q q' : queue.Carrier} {x : α} (h : queue.pop q = some (x, q'))
include h

theorem mem_items_pop {y : α} : y ∈ queue.items q ↔ y = x ∨ y ∈ queue.items q' := by
  rw [(queue.pop_some q x q' h).1.mem_iff, List.mem_cons]

theorem length_items_pop : (queue.items q).length = (queue.items q').length + 1 := by
  rw [(queue.pop_some q x q' h).1.length_eq, List.length_cons]

theorem key_pop_le {y : α} (hy : y ∈ queue.items q) : key x ≤ key y :=
  (queue.pop_some q x q' h).2 y hy

end Laws

/-! ### Queues kept as lists -/

/-- The first item of least key, and the others in order. -/
def popLeast {α : Type} (key : α → ℕ) : List α → Option (α × List α)
  | [] => none
  | x :: xs =>
    match popLeast key xs with
    | none => some (x, [])
    | some (y, ys) => if key x ≤ key y then some (x, xs) else some (y, x :: ys)

theorem popLeast_none {α : Type} (key : α → ℕ) :
    ∀ {l : List α}, popLeast key l = none → l = [] := by
  intro l
  cases l with
  | nil => intro _; rfl
  | cons x xs =>
    intro h
    simp only [popLeast] at h
    split at h
    · cases h
    · split_ifs at h

theorem popLeast_some {α : Type} (key : α → ℕ) : ∀ {l : List α} {x : α} {l' : List α},
    popLeast key l = some (x, l') → l.Perm (x :: l') ∧ ∀ y ∈ l, key x ≤ key y := by
  intro l
  induction l with
  | nil => intro x l' h; cases h
  | cons a l ih =>
    intro x l' h
    simp only [popLeast] at h
    split at h
    · next hnone =>
      cases h
      rw [popLeast_none key hnone]
      simp
    · next y ys hmin =>
      obtain ⟨hperm, hle⟩ := ih hmin
      split_ifs at h with hay
      · cases h
        refine ⟨List.Perm.refl _, fun z hz => ?_⟩
        rcases List.mem_cons.mp hz with rfl | hz
        · exact le_rfl
        · exact hay.trans (hle z hz)
      · cases h
        refine ⟨(hperm.cons a).trans (List.Perm.swap _ _ _), fun z hz => ?_⟩
        rcases List.mem_cons.mp hz with rfl | hz
        · omega
        · exact hle z hz

/-- The queue kept as an unordered list; equal keys leave it in list order. -/
def ofList {α : Type} (key : α → ℕ) : PriorityQueue α key where
  Carrier := List α
  items := id
  empty := []
  push q x := x :: q
  pop := popLeast key
  items_empty := rfl
  items_push _ _ := List.Perm.refl _
  pop_none _ h := popLeast_none key h
  pop_some _ _ _ h := popLeast_some key h

end PriorityQueue
