import Mathlib.Data.List.Infix
import Mathlib.Tactic

/-!
# The newest entries of a log

A log grows at its end and is read from there: a window on it is its newest entries, newest first.
A window can be kept up to date without the log, by putting each new entry in front and dropping
what is over its length; and dropping old entries of the log leaves the window, as long as enough
of them stay.

## Main definitions

* `Newest.newest` — the newest entries of a log, newest first.
* `Newest.Trimmed` — a log without some of its oldest entries.
* `Newest.Windows` — a cache of windows of some logs.

## Main results

* `Newest.newest_snoc` — a window rolls on.
* `Newest.Trimmed.newest_eq` — **trimming a log leaves its window.**
* `Newest.newest_eq_iff_of_suffix` — when the end of a log has its window.
-/

namespace Newest

variable {α β : Type*} {n : ℕ} {log : List α}

/-- The newest `n` entries of a log, newest first. -/
def newest (n : ℕ) (log : List α) : List α := log.reverse.take n

@[simp] theorem newest_nil (n : ℕ) : newest n ([] : List α) = [] := List.take_nil

theorem mem_of_mem_newest {x : α} (h : x ∈ newest n log) : x ∈ log :=
  List.mem_reverse.mp (List.mem_of_mem_take h)

theorem newest_map (n : ℕ) (f : α → β) (log : List α) :
    newest n (log.map f) = (newest n log).map f := by
  rw [newest, newest, ← List.map_reverse, List.map_take]

/-- A window rolls on: the new entry in front, and no more than fit. -/
theorem newest_snoc (n : ℕ) (log : List α) (x : α) :
    newest n (log ++ [x]) = (x :: newest n log).take n := by
  rw [newest, newest, List.reverse_append, List.reverse_singleton, List.singleton_append]
  cases n with
  | zero => rfl
  | succ n => rw [List.take_succ_cons, List.take_succ_cons, List.take_take,
      Nat.min_eq_left (Nat.le_succ n)]

/-! ### Trimmed logs -/

/-- `kept` is a log without some of its oldest entries, with a window's worth of them left. -/
structure Trimmed (n : ℕ) (kept log : List α) : Prop where
  suffix : kept <:+ log
  le_length : min n log.length ≤ kept.length

namespace Trimmed

variable {kept : List α}

theorem refl (n : ℕ) (log : List α) : Trimmed n log log := ⟨List.suffix_rfl, Nat.min_le_right _ _⟩

/-- A new entry goes to the end, and then all but the last `m` entries may go. -/
theorem snoc_drop (h : Trimmed n kept log) {m : ℕ} (hm : n ≤ m) (x : α) :
    Trimmed n ((kept ++ [x]).drop ((kept ++ [x]).length - m)) (log ++ [x]) := by
  obtain ⟨old, rfl⟩ := h.suffix
  have hlen := h.le_length
  refine ⟨(List.drop_suffix _ _).trans ⟨old, by rw [List.append_assoc]⟩, ?_⟩
  simp only [List.length_drop, List.length_append, List.length_singleton] at hlen ⊢
  omega

/-- **Trimming a log leaves its window.** -/
theorem newest_eq (h : Trimmed n kept log) : newest n kept = newest n log := by
  obtain ⟨old, rfl⟩ := h.suffix
  have hlen := h.le_length
  rw [newest, newest, List.reverse_append]
  rcases Nat.lt_or_ge kept.length n with hlt | hge
  · -- fewer than a window are left, so nothing was trimmed at all
    rw [List.length_append] at hlen
    obtain rfl : old = [] := List.length_eq_zero_iff.mp (by omega)
    rw [List.reverse_nil, List.append_nil]
  · rw [List.take_append_of_le_length (by rw [List.length_reverse]; exact hge)]

end Trimmed

/-- A suffix of a log has its window exactly if it is trimmed to no less than that. -/
theorem newest_eq_iff_of_suffix {kept : List α} (h : kept <:+ log) :
    newest n kept = newest n log ↔ min n log.length ≤ kept.length := by
  constructor
  · intro heq
    have hlen := congrArg List.length heq
    simp only [newest, List.length_take, List.length_reverse] at hlen
    omega
  · exact fun hlen => Trimmed.newest_eq ⟨h, hlen⟩

/-! ### Caches of windows -/

section Windows

variable {K : Type*} {logs cache : K → Option (List α)}

/-- The windows that are cached are those of the logs there are. -/
def Windows (n : ℕ) (logs cache : K → Option (List α)) : Prop :=
  ∀ k, cache k = (logs k).map (newest n)

/-- One log is replaced, and its window, or both are dropped. -/
theorem Windows.update [DecidableEq K] (h : Windows n logs cache) (k : K)
    {log window : Option (List α)} (hwindow : window = log.map (newest n)) :
    Windows n (Function.update logs k log) (Function.update cache k window) := by
  intro k'
  rcases eq_or_ne k' k with rfl | hne
  · rw [Function.update_self, Function.update_self, hwindow]
  · rw [Function.update_of_ne hne, Function.update_of_ne hne]
    exact h k'

end Windows

end Newest
