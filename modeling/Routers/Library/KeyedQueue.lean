import Mathlib.Data.List.Basic
import Mathlib.Data.List.Perm.Basic
import Mathlib.Data.Nat.Notation

/-!
# Queues of many keys

A queue that is shared by many keys is, for each of them, a queue of its own: what is taken from
the front of the one is taken from the front of the other.

## Main results

* `filter_take`, `filter_drop` — **the front of a shared queue is the front of a key's.**
* `getElem?_filter` — the place of an element in the queue of its key.
-/

namespace KeyedQueue

variable {α : Type*} (p : α → Bool) {l : List α} {n : ℕ} {a : α}

/-- How many of the first elements are of a key. -/
def before (l : List α) (n : ℕ) : ℕ := (l.take n).countP p

@[simp] theorem before_zero (l : List α) : before p l 0 = 0 := by simp [before]

theorem before_le (l : List α) (n : ℕ) : before p l n ≤ (l.filter p).length := by
  rw [before, ← List.countP_eq_length_filter]
  exact (List.take_sublist n l).countP_le

theorem before_eq_of_le (h : l.length ≤ n) : before p l n = (l.filter p).length := by
  rw [before, List.take_of_length_le h, List.countP_eq_length_filter]

theorem filter_take (l : List α) (n : ℕ) :
    (l.take n).filter p = (l.filter p).take (before p l n) := by
  have hsplit : l.filter p = (l.take n).filter p ++ (l.drop n).filter p := by
    rw [← List.filter_append, List.take_append_drop]
  rw [hsplit, before, List.countP_eq_length_filter, List.take_left']
  rfl

theorem filter_drop (l : List α) (n : ℕ) :
    (l.drop n).filter p = (l.filter p).drop (before p l n) := by
  have hsplit : l.filter p = (l.take n).filter p ++ (l.drop n).filter p := by
    rw [← List.filter_append, List.take_append_drop]
  rw [hsplit, before, List.countP_eq_length_filter, List.drop_left']
  rfl

theorem before_append_of_le {l' : List α} (h : n ≤ l.length) :
    before p (l ++ l') n = before p l n := by
  rw [before, List.take_append_of_le_length h, before]

/-- One element further. -/
theorem before_succ (h : l[n]? = some a) :
    before p l (n + 1) = before p l n + if p a then 1 else 0 := by
  rw [before, List.take_add_one, h, List.countP_append, before, Option.toList_some,
    List.countP_singleton]

theorem getElem?_filter (h : l[n]? = some a) (ha : p a) :
    (l.filter p)[before p l n]? = some a := by
  obtain ⟨hn, rfl⟩ := List.getElem?_eq_some_iff.mp h
  have hsplit : l.filter p = (l.take n).filter p ++ (l[n] :: (l.drop (n + 1)).filter p) := by
    conv_lhs => rw [← List.take_append_drop n l, List.drop_eq_getElem_cons hn]
    rw [List.filter_append, List.filter_cons_of_pos ha]
  rw [hsplit, before, List.countP_eq_length_filter, List.getElem?_append_right (Nat.le_refl _),
    Nat.sub_self, List.getElem?_cons_zero]

end KeyedQueue
