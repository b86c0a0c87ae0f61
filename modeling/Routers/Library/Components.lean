import Mathlib.Data.Nat.Count
import Mathlib.Logic.Relation
import Mathlib.Order.Lattice.Nat
import Mathlib.Tactic

/-!
# Components of marked positions

Some positions are marked, and two of them belong together when a chain of marked positions links
them, each near the next.  A component is known by its first position, and the components are
numbered in the order of those.  A sweep over the positions finds a component at its first position,
unless it comes upon the position from a component before.

## Main definitions

* `Components.Linked` — a chain of marked positions, each near the next.
* `Components.first`, `Components.IsHead` — the first position of a component.
* `Components.rank` — the number of a component.
* `Components.Before` — the positions a sweep has met before a position.

## Main results

* `Components.first_eq_iff`, `rank_eq_iff` — components have different first positions and numbers.
* `Components.before_iff` — a sweep has met the components that begin before.
* `Components.before_succ_iff` — how far it gets at a position it had not met.
* `Components.first_eq_iff_new` — **the marked positions it then meets are a component.**
-/

namespace Components

open Relation (ReflTransGen)

variable {marked : ℕ → Prop} {near : ℕ → ℕ → Prop} {i j k : ℕ}

/-- A chain of marked positions, each near the next. -/
def Linked (marked : ℕ → Prop) (near : ℕ → ℕ → Prop) : ℕ → ℕ → Prop :=
  ReflTransGen fun i j => marked i ∧ marked j ∧ near i j

theorem Linked.single (hi : marked i) (hj : marked j) (h : near i j) : Linked marked near i j :=
  ReflTransGen.single ⟨hi, hj, h⟩

theorem Linked.trans (h : Linked marked near i j) (h' : Linked marked near j k) :
    Linked marked near i k :=
  ReflTransGen.trans h h'

theorem Linked.symm (hsymm : ∀ i j, near i j → near j i) (h : Linked marked near i j) :
    Linked marked near j i := by
  induction h with
  | refl => exact .refl
  | tail _ hstep ih => exact (Linked.single hstep.2.1 hstep.1 (hsymm _ _ hstep.2.2)).trans ih

/-- What a marked position is linked to is marked. -/
theorem Linked.isMarked (h : Linked marked near i j) (hi : marked i) : marked j := by
  rcases Relation.ReflTransGen.cases_tail h with rfl | ⟨_, -, -, hj, -⟩
  · exact hi
  · exact hj

/-- The ends of a chain may be changed for positions that are marked and near to the same. -/
theorem Linked.replace {i' j' : ℕ} (h : Linked marked near i j) (hne : i ≠ j)
    (hi : ∀ k, marked i → near i k → marked i' ∧ near i' k)
    (hj : ∀ k, marked j → near k j → marked j' ∧ near k j') : Linked marked near i' j' := by
  have hchain := (Relation.reflTransGen_iff_eq_or_transGen.mp h).resolve_left hne.symm
  obtain ⟨k, hstep, hrest⟩ := Relation.TransGen.head'_iff.mp hchain
  obtain ⟨hmarked, hnear⟩ := hi k hstep.1 hstep.2.2
  have hchain' := Relation.TransGen.head'_iff.mpr ⟨k, ⟨hmarked, hstep.2.1, hnear⟩, hrest⟩
  obtain ⟨k, hrest, hstep⟩ := Relation.TransGen.tail'_iff.mp hchain'
  obtain ⟨hmarked, hnear⟩ := hj k hstep.2.1 hstep.2.2
  exact ReflTransGen.tail hrest ⟨hstep.1, hmarked, hnear⟩

/-- Where a chain out of marked positions ends. -/
theorem reach_iff : ReflTransGen (fun a b => marked a ∧ near a b) k i ↔
    i = k ∨ ∃ p, marked p ∧ Linked marked near k p ∧ near p i := by
  constructor
  · intro h
    induction h with
    | refl => exact .inl rfl
    | @tail b c _ hstep ih =>
      refine .inr ⟨b, hstep.1, ?_, hstep.2⟩
      rcases ih with rfl | ⟨p, hp, hlinked, hnear⟩
      · exact .refl
      · exact hlinked.trans (.single hp hstep.1 hnear)
  · rintro (rfl | ⟨p, hp, hlinked, hnear⟩)
    · exact .refl
    · refine ReflTransGen.tail ?_ ⟨hp, hnear⟩
      exact ReflTransGen.mono (fun _ _ hab => ⟨hab.1, hab.2.2⟩) _ _ hlinked

/-! ### First positions -/

/-- The first position linked to one. -/
noncomputable def first (marked : ℕ → Prop) (near : ℕ → ℕ → Prop) (i : ℕ) : ℕ :=
  sInf {j | Linked marked near i j}

/-- The first positions of components. -/
def IsHead (marked : ℕ → Prop) (near : ℕ → ℕ → Prop) (k : ℕ) : Prop :=
  marked k ∧ first marked near k = k

theorem linked_first (i : ℕ) : Linked marked near i (first marked near i) :=
  Nat.sInf_mem ⟨i, ReflTransGen.refl⟩

theorem first_le (h : Linked marked near i j) : first marked near i ≤ j := Nat.sInf_le h

theorem first_le_self (i : ℕ) : first marked near i ≤ i := first_le .refl

section Symm

variable (hsymm : ∀ i j, near i j → near j i)
include hsymm

/-- **Components have different first positions.** -/
theorem first_eq_iff : first marked near i = first marked near j ↔ Linked marked near i j := by
  constructor
  · intro h
    have hback : Linked marked near (first marked near j) j := (linked_first j).symm hsymm
    rw [← h] at hback
    exact (linked_first i).trans hback
  · intro h
    exact le_antisymm (first_le (h.trans (linked_first j)))
      (first_le ((h.symm hsymm).trans (linked_first i)))

theorem first_first (i : ℕ) :
    first marked near (first marked near i) = first marked near i :=
  (first_eq_iff hsymm).mpr ((linked_first i).symm hsymm)

theorem isHead_first (hi : marked i) : IsHead marked near (first marked near i) :=
  ⟨(linked_first i).isMarked hi, first_first hsymm i⟩

/-- Near marked positions are of one component. -/
theorem first_eq_of_near (hi : marked i) (hj : marked j) (h : near i j) :
    first marked near i = first marked near j :=
  (first_eq_iff hsymm).mpr (.single hi hj h)

end Symm

/-! ### Numbers -/

open Classical in
/-- The number of the component of a position: how many begin before it does. -/
noncomputable def rank (marked : ℕ → Prop) (near : ℕ → ℕ → Prop) (i : ℕ) : ℕ :=
  Nat.count (IsHead marked near) (first marked near i)

/-- **Components have different numbers.** -/
theorem rank_eq_iff (hsymm : ∀ i j, near i j → near j i) (hi : marked i) (hj : marked j) :
    rank marked near i = rank marked near j ↔ Linked marked near i j := by
  rw [← first_eq_iff hsymm]
  constructor
  · intro h
    classical
    exact Nat.count_injective (isHead_first hsymm hi) (isHead_first hsymm hj) h
  · intro h
    rw [rank, rank, h]

/-! ### Sweeps -/

/-- The positions a sweep has met before position `k`: those before it, and those near a component
that begins before it. -/
def Before (marked : ℕ → Prop) (near : ℕ → ℕ → Prop) (k i : ℕ) : Prop :=
  i < k ∨ ∃ p, marked p ∧ first marked near p < k ∧ near p i

section Sweep

variable (hsymm : ∀ i j, near i j → near j i)
include hsymm

/-- What a marked position that was met is near to was met. -/
theorem Before.extend (h : Before marked near k i) (hi : marked i) (hij : near i j) :
    Before marked near k j := by
  refine .inr ⟨i, hi, ?_, hij⟩
  rcases h with hlt | ⟨p, hp, hfirst, hnear⟩
  · exact (first_le_self i).trans_lt hlt
  · rwa [← first_eq_of_near hsymm hp hi hnear]

/-- **A marked position was met where its component begins before.** -/
theorem before_iff (hi : marked i) : Before marked near k i ↔ first marked near i < k := by
  constructor
  · rintro (hlt | ⟨p, hp, hfirst, hnear⟩)
    · exact (first_le_self i).trans_lt hlt
    · rwa [← first_eq_of_near hsymm hp hi hnear]
  · intro hlt
    -- the last step of a chain from the first position comes from the same component
    rcases Relation.ReflTransGen.cases_tail ((linked_first i).symm hsymm) with heq | ⟨p, hp, hstep⟩
    · exact .inl (heq ▸ hlt)
    · refine .inr ⟨p, hstep.1, ?_, hstep.2.2⟩
      rwa [first_eq_of_near hsymm hstep.1 hi hstep.2.2]

/-- A component begins where a sweep comes to a marked position it had not met. -/
theorem isHead_iff : IsHead marked near k ↔ marked k ∧ ¬ Before marked near k k := by
  refine and_congr_right fun hk => ?_
  rw [before_iff hsymm hk, not_lt]
  exact ⟨fun hfirst => hfirst.ge, fun hle => (first_le_self k).antisymm hle⟩

/-- No component begins at a position that was met before. -/
theorem first_ne_of_before (hk : Before marked near k k) (hi : marked i) :
    first marked near i ≠ k := by
  rintro rfl
  exact ((isHead_iff hsymm).mp (isHead_first hsymm hi)).2 hk

/-- What is met at a position: it, and what can be reached from it. -/
theorem before_succ_iff : Before marked near (k + 1) i ↔ Before marked near k i ∨
    ReflTransGen (fun a b => marked a ∧ near a b) k i := by
  rw [reach_iff]
  constructor
  · rintro (hlt | ⟨p, hp, hfirst, hnear⟩)
    · rcases Nat.lt_succ_iff_lt_or_eq.mp hlt with hlt | rfl
      · exact .inl (.inl hlt)
      · exact .inr (.inl rfl)
    · rcases Nat.lt_succ_iff_lt_or_eq.mp hfirst with hlt | rfl
      · exact .inl (.inr ⟨p, hp, hlt, hnear⟩)
      · exact .inr (.inr ⟨p, hp, (linked_first p).symm hsymm, hnear⟩)
  · rintro ((hlt | ⟨p, hp, hfirst, hnear⟩) | rfl | ⟨p, hp, hlinked, hnear⟩)
    · exact .inl (hlt.trans (Nat.lt_succ_self k))
    · exact .inr ⟨p, hp, hfirst.trans (Nat.lt_succ_self k), hnear⟩
    · exact .inl (Nat.lt_succ_self i)
    · refine .inr ⟨p, hp, ?_, hnear⟩
      exact Nat.lt_succ_of_le (first_le (hlinked.symm hsymm))

/-- Nothing is met at a position that was met before. -/
theorem before_succ_of_before (hk : Before marked near k k) :
    Before marked near (k + 1) i ↔ Before marked near k i := by
  rw [before_succ_iff hsymm, or_iff_left_of_imp]
  intro hreach
  induction hreach with
  | refl => exact hk
  | tail _ hstep ih => exact ih.extend hsymm hstep.1 hstep.2

/-- **The marked positions met at a position are the component that begins there.** -/
theorem first_eq_iff_new (hi : marked i) :
    first marked near i = k ↔ Before marked near (k + 1) i ∧ ¬ Before marked near k i := by
  rw [before_iff hsymm hi, before_iff hsymm hi]
  omega

end Sweep

end Components
