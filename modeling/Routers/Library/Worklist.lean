import Mathlib.Data.List.GetD
import Mathlib.Logic.Relation
import Mathlib.Tactic

/-!
# Worklists

A search over positions keeps a mark for each position and a list of the marked ones still to be
handled.  Handling one marks and lists what follows it, unless it is marked already, so no position
is listed twice; and what the marks gain over those there were is what can be reached.

## Main definitions

* `Worklist`, `Worklist.add`, `Worklist.addAll` — the marks with the list, and how they grow.
* `Worklist.room` — a bound on the positions still to be handled.
* `Worklist.Exploring` — what holds while the positions reached from a root are searched.

## Main results

* `Worklist.room_addAll` — every position is listed at most once.
* `Worklist.Exploring.handle` — handling a position keeps the search going.
* `Worklist.Exploring.isSeen_iff` — **what is marked when the list is empty.**
-/

open Relation (ReflTransGen)

/-- Marks, and the marked positions still to be handled, the next one first. -/
structure Worklist where
  seen : List Bool
  queue : List ℕ

namespace Worklist

variable {w : Worklist} {i j : ℕ} {js : List ℕ}

/-- The position is marked. -/
def IsSeen (w : Worklist) (i : ℕ) : Prop := w.seen.getD i false = true

/-- Mark and list a position that is not marked. -/
def add (w : Worklist) (j : ℕ) : Worklist :=
  if w.seen.getD j false then w else ⟨w.seen.set j true, j :: w.queue⟩

/-- Mark and list positions one after the other. -/
def addAll (w : Worklist) (js : List ℕ) : Worklist := js.foldl add w

/-- The positions that are not marked, and those that are listed. -/
def room (w : Worklist) : ℕ := w.seen.count false + w.queue.length

/-! ### Growing -/

theorem add_of_isSeen (h : w.IsSeen j) : w.add j = w := if_pos h

theorem add_of_not_isSeen (h : ¬ w.IsSeen j) : w.add j = ⟨w.seen.set j true, j :: w.queue⟩ :=
  if_neg h

theorem isSeen_set {seen : List Bool} {queue queue' : List ℕ} (hj : j < seen.length) :
    (⟨seen.set j true, queue⟩ : Worklist).IsSeen i ↔
      (⟨seen, queue'⟩ : Worklist).IsSeen i ∨ i = j := by
  rw [IsSeen, IsSeen, List.getD_eq_getElem?_getD, List.getD_eq_getElem?_getD, List.getElem?_set]
  by_cases h : j = i
  · simp [h, h ▸ hj]
  · simp [h, Ne.symm h]

theorem isSeen_add (hj : j < w.seen.length) : (w.add j).IsSeen i ↔ w.IsSeen i ∨ i = j := by
  by_cases h : w.IsSeen j
  · rw [add_of_isSeen h, iff_self_or]
    rintro rfl
    exact h
  · rw [add_of_not_isSeen h]
    exact isSeen_set hj

theorem length_seen_add (w : Worklist) (j : ℕ) : (w.add j).seen.length = w.seen.length := by
  by_cases h : w.IsSeen j
  · rw [add_of_isSeen h]
  · rw [add_of_not_isSeen h]
    exact List.length_set

theorem length_seen_addAll (w : Worklist) (js : List ℕ) :
    (w.addAll js).seen.length = w.seen.length := by
  induction js generalizing w with
  | nil => rfl
  | cons j js ih =>
    rw [addAll, List.foldl_cons]
    exact (ih (w.add j)).trans (length_seen_add w j)

/-- What is added is marked. -/
theorem isSeen_addAll (hjs : ∀ j ∈ js, j < w.seen.length) :
    (w.addAll js).IsSeen i ↔ w.IsSeen i ∨ i ∈ js := by
  induction js generalizing w with
  | nil => simp [addAll]
  | cons j js ih =>
    obtain ⟨hj, hjs⟩ := List.forall_mem_cons.mp hjs
    rw [addAll, List.foldl_cons]
    refine (ih (by rwa [length_seen_add])).trans ?_
    rw [isSeen_add hj, List.mem_cons, or_assoc]

/-- What is added is listed, if it was not marked. -/
theorem mem_queue_addAll (hjs : ∀ j ∈ js, j < w.seen.length) :
    i ∈ (w.addAll js).queue ↔ i ∈ w.queue ∨ i ∈ js ∧ ¬ w.IsSeen i := by
  induction js generalizing w with
  | nil => simp [addAll]
  | cons j js ih =>
    obtain ⟨hj, hjs⟩ := List.forall_mem_cons.mp hjs
    rw [addAll, List.foldl_cons]
    refine (ih (by rwa [length_seen_add])).trans ?_
    rw [isSeen_add hj, List.mem_cons]
    by_cases h : w.IsSeen j
    · rw [add_of_isSeen h]
      have hne : ¬ w.IsSeen i → i ≠ j := by
        rintro hi rfl
        exact hi h
      tauto
    · rw [add_of_not_isSeen h, List.mem_cons]
      have heq : i = j → ¬ w.IsSeen i := by
        rintro rfl
        exact h
      tauto

/-- Nothing is listed twice. -/
theorem nodup_addAll (hnodup : w.queue.Nodup) (hseen : ∀ q ∈ w.queue, w.IsSeen q)
    (hjs : ∀ j ∈ js, j < w.seen.length) : (w.addAll js).queue.Nodup := by
  induction js generalizing w with
  | nil => exact hnodup
  | cons j js ih =>
    obtain ⟨hj, hjs⟩ := List.forall_mem_cons.mp hjs
    rw [addAll, List.foldl_cons]
    by_cases h : w.IsSeen j
    · rw [add_of_isSeen h]
      exact ih hnodup hseen hjs
    · have hadd := add_of_not_isSeen h
      refine ih ?_ ?_ (by rwa [length_seen_add])
      · rw [hadd]
        exact List.nodup_cons.mpr ⟨fun hmem => h (hseen j hmem), hnodup⟩
      · intro q hq
        rw [isSeen_add hj]
        rw [hadd, List.mem_cons] at hq
        exact hq.symm.imp_left (hseen q)

/-- **Every position is listed at most once.** -/
theorem room_addAll (hjs : ∀ j ∈ js, j < w.seen.length) : (w.addAll js).room = w.room := by
  induction js generalizing w with
  | nil => rfl
  | cons j js ih =>
    obtain ⟨hj, hjs⟩ := List.forall_mem_cons.mp hjs
    have hstep : (w.add j).room = w.room := by
      by_cases h : w.IsSeen j
      · rw [add_of_isSeen h]
      · -- a mark is set, and its position listed
        have hfalse : w.seen[j] = false := by
          rw [IsSeen, List.getD_eq_getElem _ _ hj] at h
          exact eq_false_of_ne_true h
        have hpos : 0 < w.seen.count false :=
          List.count_pos_iff.mpr (hfalse ▸ List.getElem_mem hj)
        have hcount : (w.seen.set j true).count false = w.seen.count false - 1 := by
          rw [List.count_set hj, hfalse]
          rfl
        rw [add_of_not_isSeen h, room, room, List.length_cons, hcount]
        omega
    rw [addAll, List.foldl_cons]
    exact (ih (by rwa [length_seen_add])).trans hstep

/-- A position is marked and listed. -/
theorem room_start {seen : List Bool} {root : ℕ} (hroot : root < seen.length)
    (hnew : ¬ (⟨seen, []⟩ : Worklist).IsSeen root) :
    (⟨seen.set root true, [root]⟩ : Worklist).room ≤ seen.length := by
  have hroom : (addAll ⟨seen, []⟩ [root]).room = (⟨seen, []⟩ : Worklist).room :=
    room_addAll (by simpa using hroot)
  rw [addAll, List.foldl_cons, add_of_not_isSeen hnew] at hroom
  exact hroom.le.trans List.count_le_length

/-! ### Searching from a root -/

/-- A search from `root` along `next`, over marks of which the `old` ones were there before: what
is listed is new, what is new was reached, and what followed a new position that has been handled
is marked. -/
structure Exploring (next : ℕ → List ℕ) (root : ℕ) (old : ℕ → Prop) (w : Worklist) : Prop where
  nodup : w.queue.Nodup
  queued : ∀ q ∈ w.queue, w.IsSeen q ∧ ¬ old q
  root_seen : w.IsSeen root
  old_seen : ∀ i, old i → w.IsSeen i
  reached : ∀ i, w.IsSeen i → ¬ old i → ReflTransGen (fun a b => b ∈ next a) root i
  closed : ∀ i, w.IsSeen i → ¬ old i → i ∉ w.queue → ∀ j ∈ next i, w.IsSeen j

/-- The new positions that have been handled. -/
def Handled (old : ℕ → Prop) (w : Worklist) (i : ℕ) : Prop := w.IsSeen i ∧ ¬ old i ∧ i ∉ w.queue

namespace Exploring

variable {next : ℕ → List ℕ} {root : ℕ} {old : ℕ → Prop} {seen : List Bool} {queue : List ℕ}

/-- The root is marked and listed. -/
theorem start (hroot : root < seen.length) (hold : ∀ i, (⟨seen, []⟩ : Worklist).IsSeen i ↔ old i)
    (hnew : ¬ old root) : Exploring next root old ⟨seen.set root true, [root]⟩ := by
  have hseen : ∀ i, (⟨seen.set root true, [root]⟩ : Worklist).IsSeen i ↔ old i ∨ i = root :=
    fun i => (isSeen_set hroot).trans (or_congr_left (hold i))
  exact
    { nodup := List.nodup_singleton root
      queued := by
        intro q hq
        obtain rfl := List.mem_singleton.mp hq
        exact ⟨(hseen q).mpr (.inr rfl), hnew⟩
      root_seen := (hseen root).mpr (.inr rfl)
      old_seen := fun i hi => (hseen i).mpr (.inl hi)
      reached := by
        intro i hi hi'
        obtain rfl := ((hseen i).mp hi).resolve_left hi'
        exact .refl
      closed := by
        intro i hi hi' hq
        exact absurd (List.mem_singleton.mpr (((hseen i).mp hi).resolve_left hi')) hq }

/-- **Handling a position**: it leaves the list, and what follows it is added. -/
theorem handle {ind : ℕ} (h : Exploring next root old ⟨seen, ind :: queue⟩)
    (hnext : ∀ j ∈ next ind, j < seen.length) :
    Exploring next root old (addAll ⟨seen, queue⟩ (next ind)) := by
  obtain ⟨hnotin, hnodup⟩ := List.nodup_cons.mp h.nodup
  obtain ⟨hind, hnew⟩ := h.queued ind List.mem_cons_self
  have hseen : ∀ i, (addAll ⟨seen, queue⟩ (next ind)).IsSeen i ↔
      (⟨seen, queue⟩ : Worklist).IsSeen i ∨ i ∈ next ind := fun i => isSeen_addAll hnext
  have hqueue : ∀ i, i ∈ (addAll ⟨seen, queue⟩ (next ind)).queue ↔
      i ∈ queue ∨ i ∈ next ind ∧ ¬ (⟨seen, queue⟩ : Worklist).IsSeen i :=
    fun i => mem_queue_addAll hnext
  exact
    { nodup := nodup_addAll hnodup (fun q hq => (h.queued q (List.mem_cons_of_mem ind hq)).1) hnext
      queued := by
        intro q hq
        rw [hseen]
        rcases (hqueue q).mp hq with hq | ⟨hq, hunseen⟩
        · obtain ⟨hmark, hfresh⟩ := h.queued q (List.mem_cons_of_mem ind hq)
          exact ⟨.inl hmark, hfresh⟩
        · exact ⟨.inr hq, fun hold => hunseen (h.old_seen q hold)⟩
      root_seen := (hseen root).mpr (.inl h.root_seen)
      old_seen := fun i hi => (hseen i).mpr (.inl (h.old_seen i hi))
      reached := by
        intro i hi hi'
        rcases (hseen i).mp hi with hmark | hmem
        · exact h.reached i hmark hi'
        · exact (h.reached ind hind hnew).tail hmem
      closed := by
        intro i hi hi' hq j hj
        rw [hqueue, not_or, not_and_not_right] at hq
        rw [hseen]
        have hmark : (⟨seen, queue⟩ : Worklist).IsSeen i := ((hseen i).mp hi).elim id hq.2
        -- it was handled before, or just now
        rcases eq_or_ne i ind with rfl | hne
        · exact .inr hj
        · have hlisted : i ∉ ind :: queue := by
            rw [List.mem_cons, not_or]
            exact ⟨hne, hq.1⟩
          exact .inl (h.closed i hmark hi' hlisted j hj) }

/-- The position is then among those handled. -/
theorem handled_iff {ind : ℕ} (h : Exploring next root old ⟨seen, ind :: queue⟩)
    (hnext : ∀ j ∈ next ind, j < seen.length) (i : ℕ) :
    Handled old (addAll ⟨seen, queue⟩ (next ind)) i ↔
      i = ind ∨ Handled old ⟨seen, ind :: queue⟩ i := by
  obtain ⟨hnotin, -⟩ := List.nodup_cons.mp h.nodup
  obtain ⟨hind, hnew⟩ := h.queued ind List.mem_cons_self
  have hseen : (⟨seen, queue⟩ : Worklist).IsSeen i ↔
      (⟨seen, ind :: queue⟩ : Worklist).IsSeen i := Iff.rfl
  rw [Handled, Handled, isSeen_addAll hnext, mem_queue_addAll hnext, hseen, List.mem_cons]
  rcases eq_or_ne i ind with rfl | hne
  · tauto
  · tauto

/-- **When the list is empty, the new marks are those of what can be reached**, where nothing leads
out of the old ones. -/
theorem isSeen_iff (h : Exploring next root old w) (hempty : w.queue = [])
    (hclosed : ∀ i, old i → ∀ j ∈ next i, old j) (i : ℕ) :
    w.IsSeen i ↔ old i ∨ ReflTransGen (fun a b => b ∈ next a) root i := by
  constructor
  · intro hi
    by_cases hold : old i
    · exact .inl hold
    · exact .inr (h.reached i hi hold)
  · rintro (hold | hreach)
    · exact h.old_seen i hold
    · induction hreach with
      | refl => exact h.root_seen
      | @tail b c _ hstep ih =>
        by_cases hold : old b
        · exact h.old_seen c (hclosed b hold c hstep)
        · exact h.closed b ih hold (by rw [hempty]; exact List.not_mem_nil) c hstep

end Exploring

end Worklist
