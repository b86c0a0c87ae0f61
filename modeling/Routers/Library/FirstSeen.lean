import Mathlib.Data.List.Nodup

/-!
# First occurrences

A scan that remembers the keys it has seen and keeps an entry only where its key is new.

## Main definitions

* `firstSeen` — the entries kept.

## Main results

* `nodup_map_firstSeen` — **no key is kept twice.**
* `mem_map_firstSeen_iff` — every key is kept, unless it had been seen before.
-/

namespace List

variable {α K : Type} [DecidableEq K]

/-- The entries whose key is seen for the first time. -/
def firstSeen (key : α → K) : List α → List K → List α
  | [], _ => []
  | x :: l, seen =>
    if key x ∈ seen then firstSeen key l seen else x :: firstSeen key l (key x :: seen)

variable {key : α → K} {seen : List K} {l : List α}

theorem firstSeen_sublist : (l.firstSeen key seen).Sublist l := by
  induction l generalizing seen with
  | nil => exact List.Sublist.refl []
  | cons x l ih =>
    rw [firstSeen]
    split_ifs
    · exact ih.cons x
    · exact ih.cons_cons x

/-- The keys kept are those of the entries that had not been seen before. -/
theorem mem_map_firstSeen_iff {k : K} :
    k ∈ (l.firstSeen key seen).map key ↔ k ∈ l.map key ∧ k ∉ seen := by
  induction l generalizing seen with
  | nil => simp [firstSeen]
  | cons x l ih =>
    rw [firstSeen]
    split_ifs with hx
    · rw [ih, List.map_cons, List.mem_cons]
      refine and_congr_left fun hk => (or_iff_right ?_).symm
      rintro rfl
      exact hk hx
    · rw [List.map_cons, List.map_cons, List.mem_cons, List.mem_cons, ih, List.mem_cons, not_or]
      constructor
      · rintro (rfl | ⟨hmem, -, hk⟩)
        · exact ⟨Or.inl rfl, hx⟩
        · exact ⟨Or.inr hmem, hk⟩
      · rintro ⟨hmem, hk⟩
        by_cases heq : k = key x
        · exact Or.inl heq
        · exact Or.inr ⟨hmem.resolve_left heq, heq, hk⟩

/-- **No key is kept twice.** -/
theorem nodup_map_firstSeen : ((l.firstSeen key seen).map key).Nodup := by
  induction l generalizing seen with
  | nil => exact List.nodup_nil
  | cons x l ih =>
    rw [firstSeen]
    split_ifs
    · exact ih
    · rw [List.map_cons, List.nodup_cons]
      exact ⟨fun hmem => (mem_map_firstSeen_iff.mp hmem).2 List.mem_cons_self, ih⟩

/-- Entries that are their own keys are kept once each. -/
theorem mem_firstSeen_id_iff {l : List K} {k : K} : k ∈ l.firstSeen id [] ↔ k ∈ l := by
  have h : k ∈ (l.firstSeen id []).map id ↔ k ∈ l.map id ∧ k ∉ [] := mem_map_firstSeen_iff
  simpa using h

end List
