import Routers.Cluster.Basic
import Routers.Library.Components
import Routers.Library.Worklist

/-!
# The classes of the points

Each expansion is a search from a position along the points near core points, and the expansions
one after another are a sweep that meets every component of core points at its first position.  So
the core points are classed as such, and numbered by their components.

## Main definitions

* `IntoCluster.IsCore`, `Near` — core points, and points within reach, by their positions.
* `IntoCluster.Grown` — what holds while a cluster is grown.
* `IntoCluster.Swept` — what holds between two expansions.

## Main results

* `IntoCluster.expandCluster_spec` — an expansion ends, and classes what it reaches.
* `IntoCluster.classify_spec` — **the core points are classed by their components.**

## References

`src/libs/routers_geo/src/cluster.rs`.
-/

namespace Routers

open Components Worklist

variable {P D : Type} [LT D] [DecidableLT D]

namespace IntoCluster

/-! ### Core points -/

/-- Two positions whose points are closer than `epsilon`. -/
def Near (self : IntoCluster P D) (population : List P) (i j : ℕ) : Prop :=
  ∃ p q, population[i]? = some p ∧ population[j]? = some q ∧ self.distance p q < self.epsilon

/-- The positions of the core points. -/
def IsCore (self : IntoCluster P D) (population : List P) (i : ℕ) : Prop :=
  ∃ p, population[i]? = some p ∧ self.cCapacity ≤ (self.rangeQuery p population).length

/-- The positions that an expansion goes to from one. -/
def around (self : IntoCluster P D) (population : List P) (i : ℕ) : List ℕ :=
  match population[i]? with
  | none => []
  | some p =>
    let neighbors := self.rangeQuery p population
    if neighbors.length < self.cCapacity then [] else neighbors

section Core

variable {self : IntoCluster P D} {population : List P} {i j : ℕ} {p : P}

theorem mem_rangeQuery : j ∈ self.rangeQuery p population ↔
    ∃ q, population[j]? = some q ∧ self.distance p q < self.epsilon := by
  rw [rangeQuery, List.mem_map]
  constructor
  · rintro ⟨⟨q, _⟩, hq, rfl⟩
    obtain ⟨hmem, hlt⟩ := List.mem_filter.mp hq
    exact ⟨q, List.mem_zipIdx_iff_getElem?.mp hmem, of_decide_eq_true hlt⟩
  · rintro ⟨q, hq, hlt⟩
    exact ⟨(q, j), List.mem_filter.mpr
      ⟨List.mem_zipIdx_iff_getElem?.mpr hq, decide_eq_true hlt⟩, rfl⟩

theorem IsCore.lt (h : self.IsCore population i) : i < population.length := by
  obtain ⟨p, hp, -⟩ := h
  exact (List.getElem?_eq_some_iff.mp hp).1

omit [DecidableLT D] in
theorem Near.lt_right (h : self.Near population i j) : j < population.length := by
  obtain ⟨-, q, -, hq, -⟩ := h
  exact (List.getElem?_eq_some_iff.mp hq).1

omit [DecidableLT D] in
theorem Near.symm (hsymm : ∀ p q, self.distance p q = self.distance q p)
    (h : self.Near population i j) : self.Near population j i := by
  obtain ⟨p, q, hp, hq, hlt⟩ := h
  exact ⟨q, p, hq, hp, hsymm p q ▸ hlt⟩

/-- Being core is a matter of the point alone. -/
theorem IsCore.congr (h : self.IsCore population i) (hij : population[i]? = population[j]?) :
    self.IsCore population j := by
  obtain ⟨p, hp, hle⟩ := h
  exact ⟨p, hij ▸ hp, hle⟩

omit [DecidableLT D] in
theorem Near.congr_left {i' : ℕ} (h : self.Near population i j)
    (hii' : population[i]? = population[i']?) : self.Near population i' j := by
  obtain ⟨p, q, hp, hq, hlt⟩ := h
  exact ⟨p, q, hii' ▸ hp, hq, hlt⟩

omit [DecidableLT D] in
theorem Near.congr_right {j' : ℕ} (h : self.Near population i j)
    (hjj' : population[j]? = population[j']?) : self.Near population i j' := by
  obtain ⟨p, q, hp, hq, hlt⟩ := h
  exact ⟨p, q, hp, hjj' ▸ hq, hlt⟩

theorem mem_around :
    j ∈ self.around population i ↔ self.IsCore population i ∧ self.Near population i j := by
  rw [around]
  cases hp : population[i]? with
  | none => simp [IsCore, hp]
  | some p =>
    simp only [IsCore, Near, hp, Option.some.injEq, exists_eq_left']
    split_ifs with h
    · simp [Nat.not_le.mpr h]
    · simp [Nat.not_lt.mp h, mem_rangeQuery]

end Core

/-! ### One expansion -/

end IntoCluster

namespace Growth

variable (cluster : ℕ)

/-- The marks, and the stack. -/
def worklist (s : Growth) : Worklist := ⟨s.v, s.queue⟩

theorem worklist_meet (s : Growth) (j : ℕ) :
    (s.meet cluster j).worklist = s.worklist.add j := by
  have hseen : s.worklist.seen = s.v := rfl
  rw [Growth.meet, Worklist.add, hseen]
  split_ifs <;> rfl

theorem worklist_foldl_meet (s : Growth) (js : List ℕ) :
    (js.foldl (Growth.meet cluster) s).worklist = s.worklist.addAll js := by
  induction js generalizing s with
  | nil => rfl
  | cons j js ih => rw [List.foldl_cons, ih, worklist_meet, addAll, addAll, List.foldl_cons]

theorem newCluster_foldl_meet (s : Growth) (js : List ℕ) :
    (js.foldl (Growth.meet cluster) s).newCluster = s.newCluster := by
  induction js generalizing s with
  | nil => rfl
  | cons j js ih =>
    rw [List.foldl_cons, ih, Growth.meet]
    split_ifs <;> rfl

/-- Meeting a point changes no core point's class, and makes none. -/
theorem class_meet (s : Growth) (j : ℕ) :
    (s.meet cluster j).c.length = s.c.length ∧ ∀ i r : ℕ,
      (s.meet cluster j).c[i]? = some (Classification.core r) ↔
        s.c[i]? = some (Classification.core r) := by
  have hc : (s.meet cluster j).c
      = if s.c.getD j .noise = .noise then s.c.set j (.edge cluster) else s.c := by
    rw [Growth.meet]
    split_ifs <;> rfl
  rw [hc]
  split_ifs with hnoise
  · refine ⟨List.length_set, fun i r => ?_⟩
    rw [List.getElem?_set]
    split_ifs with hji hlt
    · subst hji
      rw [List.getD_eq_getElem?_getD] at hnoise
      constructor
      · intro h
        cases h
      · intro h
        rw [h] at hnoise
        cases hnoise
    · subst hji
      simp [hlt]
    · rfl
  · exact ⟨rfl, fun i r => Iff.rfl⟩

theorem class_foldl_meet (s : Growth) (js : List ℕ) :
    (js.foldl (Growth.meet cluster) s).c.length = s.c.length ∧ ∀ i r : ℕ,
      (js.foldl (Growth.meet cluster) s).c[i]? = some (Classification.core r) ↔
        s.c[i]? = some (Classification.core r) := by
  induction js generalizing s with
  | nil => exact ⟨rfl, fun _ _ => Iff.rfl⟩
  | cons j js ih =>
    obtain ⟨hlen, hclass⟩ := ih (s.meet cluster j)
    obtain ⟨hlen', hclass'⟩ := class_meet cluster s j
    rw [List.foldl_cons]
    exact ⟨hlen.trans hlen', fun i r => (hclass i r).trans (hclass' i r)⟩

end Growth

namespace IntoCluster

/-- What holds while a cluster is grown from a position, over the classes `c₀` and the marks `old`
that were there: the core points looked around have its number. -/
structure Grown (config : IntoCluster P D) (population : List P) (root cluster : ℕ)
    (c₀ : List Classification) (old : ℕ → Prop) (s : Growth) : Prop where
  exploring : Exploring (config.around population) root old s.worklist
  length_c : s.c.length = population.length
  length_v : s.v.length = population.length
  old_of_class : ∀ i r : ℕ, c₀[i]? = some (Classification.core r) → old i
  class_iff : ∀ i r : ℕ, s.c[i]? = some (Classification.core r) ↔
    (Handled old s.worklist i ∧ config.IsCore population i ∧ r = cluster) ∨
      c₀[i]? = some (Classification.core r)
  newCluster_iff : s.newCluster = true ↔
    ∃ i, Handled old s.worklist i ∧ config.IsCore population i

section Grown

variable {self : IntoCluster P D} {population : List P} {root cluster : ℕ}
  {c₀ classes : List Classification} {old : ℕ → Prop} {v : List Bool} {ind : ℕ} {queue : List ℕ}
  {newCluster : Bool}

theorem lt_of_mem_around {i j : ℕ} (h : j ∈ self.around population i) : j < population.length :=
  (mem_around.mp h).2.lt_right

section Handle

variable (h : self.Grown population root cluster c₀ old ⟨classes, v, ind :: queue, newCluster⟩)
include h

/-- A position on the stack is not yet classed as core. -/
theorem Grown.class_ne (r : ℕ) : classes[ind]? ≠ some (Classification.core r) := by
  intro hclass
  rcases (h.class_iff ind r).mp hclass with ⟨⟨-, -, hnotin⟩, -⟩ | hold
  · exact hnotin List.mem_cons_self
  · exact (h.exploring.queued ind List.mem_cons_self).2 (h.old_of_class ind r hold)

theorem Grown.ind_lt : ind < population.length := by
  have hseen := (h.exploring.queued ind List.mem_cons_self).1
  by_contra hge
  have hnone : v[ind]? = none := List.getElem?_eq_none (by rw [h.length_v]; omega)
  rw [IsSeen, List.getD_eq_getElem?_getD] at hseen
  simp [Growth.worklist, hnone] at hseen

/-- **One position off the stack**: the positions around it are met, and if it is core it is
classed. -/
theorem Grown.handle {s : Growth}
    (hw : s.worklist = (⟨v, queue⟩ : Worklist).addAll (self.around population ind))
    (hlength : s.c.length = classes.length)
    (hclass : ∀ i r : ℕ, s.c[i]? = some (Classification.core r) ↔
      (i = ind ∧ self.IsCore population ind ∧ r = cluster) ∨
        classes[i]? = some (Classification.core r))
    (hnew : s.newCluster = true ↔ newCluster = true ∨ self.IsCore population ind) :
    self.Grown population root cluster c₀ old s := by
  have hlen : v.length = population.length := h.length_v
  have hnext : ∀ j ∈ self.around population ind, j < v.length := by
    intro j hj
    rw [hlen]
    exact lt_of_mem_around hj
  have hexploring := h.exploring
  have hhandled := hexploring.handled_iff hnext
  have hold := h.class_iff
  have hnewOld := h.newCluster_iff
  have hv : s.v.length = v.length :=
    (congrArg (fun w : Worklist => w.seen.length) hw).trans (length_seen_addAll _ _)
  exact
    { exploring := hw ▸ hexploring.handle hnext
      length_c := hlength.trans h.length_c
      length_v := hv.trans hlen
      old_of_class := h.old_of_class
      class_iff := by
        intro i r
        rw [hw, hhandled i, hclass i r, hold i r]
        constructor
        · rintro (⟨rfl, hcore, rfl⟩ | ⟨hi, hcore, rfl⟩ | hi)
          · exact .inl ⟨.inl rfl, hcore, rfl⟩
          · exact .inl ⟨.inr hi, hcore, rfl⟩
          · exact .inr hi
        · rintro (⟨rfl | hi, hcore, rfl⟩ | hi)
          · exact .inl ⟨rfl, hcore, rfl⟩
          · exact .inr (.inl ⟨hi, hcore, rfl⟩)
          · exact .inr (.inr hi)
      newCluster_iff := by
        simp only [hw, hhandled, hnew, hnewOld]
        constructor
        · rintro (⟨i, hi, hcore⟩ | hcore)
          · exact ⟨i, .inr hi, hcore⟩
          · exact ⟨ind, .inl rfl, hcore⟩
        · rintro ⟨i, rfl | hi, hcore⟩
          · exact .inr hcore
          · exact .inl ⟨i, hi, hcore⟩ }

/-- Too few points around: nothing is met. -/
theorem Grown.skip {p : P} (hp : population[ind]? = some p)
    (hfew : (self.rangeQuery p population).length < self.cCapacity) :
    self.Grown population root cluster c₀ old ⟨classes, v, queue, newCluster⟩ := by
  have hcore : ¬ self.IsCore population ind := by
    rintro ⟨q, hq, hle⟩
    rw [hp] at hq
    cases hq
    omega
  have haround : self.around population ind = [] := by
    rw [around, hp]
    exact if_pos hfew
  refine h.handle ?_ rfl ?_ ?_
  · rw [haround]
    rfl
  · simp [hcore]
  · simp [hcore]

/-- Enough points around: the position is classed, and they are all met. -/
theorem Grown.expand {p : P} (hp : population[ind]? = some p)
    (hmany : ¬ (self.rangeQuery p population).length < self.cCapacity) :
    self.Grown population root cluster c₀ old ((self.rangeQuery p population).foldl
      (Growth.meet cluster) ⟨classes.set ind (.core cluster), v, queue, true⟩) := by
  have hcore : self.IsCore population ind := ⟨p, hp, Nat.not_lt.mp hmany⟩
  have haround : self.around population ind = self.rangeQuery p population := by
    rw [around, hp]
    exact if_neg hmany
  have hmeet := Growth.class_foldl_meet cluster ⟨classes.set ind (.core cluster), v, queue, true⟩
    (self.rangeQuery p population)
  have hind : ind < classes.length := h.length_c.symm ▸ h.ind_lt
  have hset : ∀ i r : ℕ, (classes.set ind (.core cluster))[i]? = some (Classification.core r) ↔
      (i = ind ∧ self.IsCore population ind ∧ r = cluster) ∨
        classes[i]? = some (Classification.core r) := by
    intro i r
    rw [List.getElem?_set]
    split_ifs with hi
    · subst hi
      rw [or_iff_left (h.class_ne r), Option.some.injEq, Classification.core.injEq]
      exact ⟨fun hr => ⟨rfl, hcore, hr.symm⟩, fun hr => hr.2.2.symm⟩
    · rw [or_iff_right fun hi' => hi hi'.1.symm]
  refine h.handle ?_ ?_ ?_ ?_
  · rw [haround]
    exact Growth.worklist_foldl_meet cluster _ _
  · exact hmeet.1.trans List.length_set
  · exact fun i r => (hmeet.2 i r).trans (hset i r)
  · rw [Growth.newCluster_foldl_meet]
    simp [hcore]

/-- There is room for what is met. -/
theorem Grown.room_expand (p : P) :
    ((self.rangeQuery p population).foldl (Growth.meet cluster)
      ⟨classes.set ind (.core cluster), v, queue, true⟩).worklist.room
        = (⟨v, queue⟩ : Worklist).room := by
  rw [Growth.worklist_foldl_meet]
  refine room_addAll fun j hj => ?_
  obtain ⟨q, hq, -⟩ := mem_rangeQuery.mp hj
  exact (List.getElem?_eq_some_iff.mp hq).1.trans_eq h.length_v.symm

end Handle

/-- **An expansion ends, with nothing on the stack.** -/
theorem expandCluster_spec {s : Growth} (h : self.Grown population root cluster c₀ old s) :
    ∀ {fuel : ℕ}, s.worklist.room ≤ fuel →
      ∃ s', self.expandCluster population cluster fuel s = some s' ∧ s'.queue = [] ∧
        self.Grown population root cluster c₀ old s' := by
  intro fuel
  induction fuel generalizing s with
  | zero =>
    intro hroom
    obtain ⟨classes, v, queue, newCluster⟩ := s
    have hqueue : queue = [] := by
      rw [room] at hroom
      exact List.length_eq_zero_iff.mp (Nat.eq_zero_of_add_eq_zero_left (Nat.le_zero.mp hroom))
    subst hqueue
    exact ⟨_, rfl, rfl, h⟩
  | succ fuel ih =>
    intro hroom
    obtain ⟨classes, v, queue, newCluster⟩ := s
    cases queue with
    | nil => exact ⟨_, rfl, rfl, h⟩
    | cons ind queue =>
      have hp := List.getElem?_eq_getElem h.ind_lt
      have hless : (⟨v, queue⟩ : Worklist).room ≤ fuel := by
        have hcons : (⟨v, ind :: queue⟩ : Worklist).room = (⟨v, queue⟩ : Worklist).room + 1 := by
          rw [room, room, List.length_cons, Nat.add_assoc]
        have hroom' : (⟨v, ind :: queue⟩ : Worklist).room ≤ fuel + 1 := hroom
        omega
      rw [expandCluster, hp, Option.bind_some]
      dsimp only
      split_ifs with hfew
      · exact ih (h.skip hp hfew) hless
      · exact ih (h.expand hp hfew) ((h.room_expand _).trans_le hless)

end Grown

/-! ### The sweep -/

open Classical in
/-- What holds between two expansions, before position `k`: the marks are on what a sweep along the
core points has met, and the core points it has met have the numbers of their components. -/
structure Swept (config : IntoCluster P D) (population : List P) (k : ℕ) (s : Sweep) : Prop where
  length_c : s.c.length = population.length
  length_v : s.v.length = population.length
  seen_iff : ∀ i, (⟨s.v, []⟩ : Worklist).IsSeen i ↔
    Before (config.IsCore population) (config.Near population) k i
  class_iff : ∀ i r : ℕ, s.c[i]? = some (Classification.core r) ↔
    config.IsCore population i ∧
      first (config.IsCore population) (config.Near population) i < k ∧
      r = rank (config.IsCore population) (config.Near population) i
  cluster_eq : s.cluster = Nat.count (IsHead (config.IsCore population) (config.Near population)) k

section Sweep

variable {self : IntoCluster P D} {population : List P} {k : ℕ} {s : Sweep}

/-- Nothing happens at a position that was met. -/
theorem Swept.seen (hnear : ∀ i j, self.Near population i j → self.Near population j i)
    (h : self.Swept population k s) (hseen : (⟨s.v, []⟩ : Worklist).IsSeen k) :
    self.Swept population (k + 1) s := by
  have hbefore := (h.seen_iff k).mp hseen
  exact
    { length_c := h.length_c
      length_v := h.length_v
      seen_iff := fun i => (h.seen_iff i).trans (before_succ_of_before hnear hbefore).symm
      class_iff := by
        intro i r
        rw [h.class_iff]
        refine and_congr_right fun hcore => and_congr_left' ?_
        have hne := first_ne_of_before hnear hbefore hcore
        omega
      cluster_eq := by
        classical
        rw [h.cluster_eq, Nat.count_succ, if_neg, Nat.add_zero]
        exact fun hhead => ((isHead_iff hnear).mp hhead).2 hbefore }

/-- An expansion begins. -/
theorem Swept.start (hnear : ∀ i j, self.Near population i j → self.Near population j i)
    (h : self.Swept population k s) (hk : k < population.length)
    (hnew : ¬ (⟨s.v, []⟩ : Worklist).IsSeen k) :
    self.Grown population k s.cluster s.c
      (Before (self.IsCore population) (self.Near population) k)
      ⟨s.c, s.v.set k true, [k], false⟩ := by
  have hlt : k < s.v.length := h.length_v.symm ▸ hk
  have hexploring : Exploring (self.around population) k
      (Before (self.IsCore population) (self.Near population) k) ⟨s.v.set k true, [k]⟩ :=
    .start hlt h.seen_iff ((h.seen_iff k).not.mp hnew)
  have hhandled : ∀ i, ¬ Handled (Before (self.IsCore population) (self.Near population) k)
      ⟨s.v.set k true, [k]⟩ i := by
    rintro i ⟨hi, hi', hi''⟩
    have hset : (⟨s.v.set k true, [k]⟩ : Worklist).IsSeen i ↔
        (⟨s.v, []⟩ : Worklist).IsSeen i ∨ i = k := isSeen_set hlt
    rcases hset.mp hi with hi | rfl
    · exact hi' ((h.seen_iff i).mp hi)
    · exact hi'' List.mem_cons_self
  exact
    { exploring := hexploring
      length_c := h.length_c
      length_v := List.length_set.trans h.length_v
      old_of_class := by
        intro i r hi
        obtain ⟨hcore, hfirst, -⟩ := (h.class_iff i r).mp hi
        exact (before_iff hnear hcore).mpr hfirst
      class_iff := fun i r => (or_iff_right fun hi => hhandled i hi.1).symm
      newCluster_iff := by
        refine iff_of_false Bool.false_ne_true ?_
        rintro ⟨i, hi, -⟩
        exact hhandled i hi }

section Ended

variable (hnear : ∀ i j, self.Near population i j → self.Near population j i) {cluster : ℕ}
  {c₀ : List Classification} {e : Growth}
  (h : self.Grown population k cluster c₀
    (Before (self.IsCore population) (self.Near population) k) e)
  (hempty : e.worklist.queue = [])
include hnear h hempty

/-- An expansion meets what a sweep meets at the position. -/
theorem Grown.isSeen_iff (i : ℕ) : e.worklist.IsSeen i ↔
    Before (self.IsCore population) (self.Near population) (k + 1) i := by
  rw [before_succ_iff hnear, h.exploring.isSeen_iff hempty]
  · simp only [mem_around]
  · intro i hi j hj
    obtain ⟨hcore, hij⟩ := mem_around.mp hj
    exact hi.extend hnear hcore hij

/-- The core points it has handled are the component that begins there. -/
theorem Grown.handled_iff {i : ℕ} (hcore : self.IsCore population i) :
    Handled (Before (self.IsCore population) (self.Near population) k) e.worklist i ↔
      first (self.IsCore population) (self.Near population) i = k := by
  rw [first_eq_iff_new hnear hcore, Handled, h.isSeen_iff hnear hempty, hempty]
  simp

/-- It makes a new cluster where a component begins. -/
theorem Grown.newCluster_eq_true_iff : e.newCluster = true ↔
    IsHead (self.IsCore population) (self.Near population) k := by
  rw [h.newCluster_iff]
  constructor
  · rintro ⟨i, hi, hcore⟩
    have hfirst := (h.handled_iff hnear hempty hcore).mp hi
    exact hfirst ▸ isHead_first hnear hcore
  · rintro ⟨hcore, hfirst⟩
    exact ⟨k, (h.handled_iff hnear hempty hcore).mpr hfirst, hcore⟩

end Ended

/-- An expansion has ended. -/
theorem Swept.next (hnear : ∀ i j, self.Near population i j → self.Near population j i)
    (h : self.Swept population k s) {e : Growth} (hempty : e.worklist.queue = [])
    (hgrown : self.Grown population k s.cluster s.c
      (Before (self.IsCore population) (self.Near population) k) e) :
    self.Swept population (k + 1)
      ⟨e.c, e.v, if e.newCluster then s.cluster + 1 else s.cluster⟩ where
  length_c := hgrown.length_c
  length_v := hgrown.length_v
  seen_iff := hgrown.isSeen_iff hnear hempty
  class_iff := by
    intro i r
    rw [hgrown.class_iff, h.class_iff]
    by_cases hcore : self.IsCore population i
    · have hrank : first (self.IsCore population) (self.Near population) i = k →
          rank (self.IsCore population) (self.Near population) i = s.cluster := by
        intro hfirst
        rw [rank, hfirst, h.cluster_eq]
      rw [hgrown.handled_iff hnear hempty hcore, Nat.lt_succ_iff_lt_or_eq]
      constructor
      · rintro (⟨hfirst, -, rfl⟩ | ⟨-, hlt, rfl⟩)
        · exact ⟨hcore, .inr hfirst, (hrank hfirst).symm⟩
        · exact ⟨hcore, .inl hlt, rfl⟩
      · rintro ⟨-, hlt | hfirst, rfl⟩
        · exact .inr ⟨hcore, hlt, rfl⟩
        · exact .inl ⟨hfirst, hcore, hrank hfirst⟩
    · simp [hcore]
  cluster_eq := by
    classical
    have hnew := propext (hgrown.newCluster_eq_true_iff hnear hempty)
    rw [Nat.count_succ, ← h.cluster_eq, ite_congr hnew (fun _ => rfl) fun _ => rfl]
    split_ifs <;> rfl

/-- **One position of the sweep**, which ends. -/
theorem sweep_spec (hnear : ∀ i j, self.Near population i j → self.Near population j i)
    (h : self.Swept population k s) (hk : k < population.length) :
    ∃ s', self.sweep population s k = some s' ∧ self.Swept population (k + 1) s' := by
  by_cases hseen : (⟨s.v, []⟩ : Worklist).IsSeen k
  · exact ⟨s, if_pos hseen, h.seen hnear hseen⟩
  · obtain ⟨e, he, hempty, hgrown⟩ := expandCluster_spec (h.start hnear hk hseen)
      ((room_start (h.length_v.symm ▸ hk) hseen).trans_eq h.length_v)
    refine ⟨_, (if_neg hseen).trans ?_, h.next hnear hempty hgrown⟩
    rw [he]
    rfl

/-- Before the sweep nothing is met. -/
theorem Swept.zero (population : List P) : self.Swept population 0
    ⟨List.replicate population.length .noise, List.replicate population.length false, 0⟩ where
  length_c := List.length_replicate
  length_v := List.length_replicate
  seen_iff := by
    intro i
    rw [IsSeen, List.getD_eq_getElem?_getD, List.getElem?_replicate]
    refine iff_of_false ?_ ?_
    · split_ifs <;> simp
    · rintro (hlt | ⟨p, -, hlt, -⟩)
      · exact absurd hlt (Nat.not_lt_zero i)
      · exact absurd hlt (Nat.not_lt_zero _)
  class_iff := by
    intro i r
    rw [List.getElem?_replicate]
    refine iff_of_false ?_ fun h => absurd h.2.1 (Nat.not_lt_zero _)
    split_ifs <;> simp
  cluster_eq := by
    classical
    rw [Nat.count_zero]

theorem foldlM_sweep (hnear : ∀ i j, self.Near population i j → self.Near population j i) :
    ∀ n ≤ population.length,
      ∃ s, (List.range n).foldlM (self.sweep population)
          ⟨List.replicate population.length .noise, List.replicate population.length false, 0⟩ =
            some s ∧ self.Swept population n s := by
  intro n
  induction n with
  | zero => exact fun _ => ⟨_, rfl, Swept.zero population⟩
  | succ n ih =>
    intro hn
    obtain ⟨s, hs, hswept⟩ := ih (by omega)
    obtain ⟨s', hs', hswept'⟩ := sweep_spec hnear hswept hn
    refine ⟨s', ?_, hswept'⟩
    rw [List.range_succ, List.foldlM_append, hs]
    simp [hs']

end Sweep

/-- **The core points are classed as such, and numbered by their components**: they have one number
where a chain of core points links them. -/
theorem classify_spec (self : IntoCluster P D) (population : List P)
    (hsymm : ∀ p q, self.distance p q = self.distance q p) :
    ∃ classes, self.classify population = some classes ∧ classes.length = population.length ∧
      ∀ i r : ℕ, classes[i]? = some (Classification.core r) ↔ self.IsCore population i ∧
        r = rank (self.IsCore population) (self.Near population) i := by
  obtain ⟨s, hs, hswept⟩ := foldlM_sweep (fun _ _ => Near.symm hsymm) population.length le_rfl
  refine ⟨s.c, congrArg (Option.map Sweep.c) hs, hswept.length_c, fun i r => ?_⟩
  rw [hswept.class_iff]
  refine and_congr_right fun hcore => and_iff_right ?_
  exact (first_le_self i).trans_lt hcore.lt

end IntoCluster

end Routers
