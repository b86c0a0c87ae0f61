import Routers.Cluster.Classes
import Routers.Library.Grouping

/-!
# The groups of the points

The points are regrouped by the numbers of their classes.  All that are not core have one number, so
three of them are a cluster like any other; two components may have one number in 32 bits; and where
no shape is made for a group its points are left out.

## Main definitions

* `IntoCluster.numberAt` — the number of the point at a position.
* `Cluster.large`, `Cluster.formed` — the numbers of large groups, and of those that have a shape.
* `IntoCluster.Placed` — the population is in the noise and the clusters, the clusters being dense.
* `IntoCluster.Regular` — large groups are components, and have shapes.

## Main results

* `Cluster.tryFrom_spec` — what comes out of the regrouping.
* `IntoCluster.regular_iff` — the regular populations, where there are numbers for all.
* `IntoCluster.cluster_dense_iff` — **exactly regular populations are placed.**
* `IntoCluster.cluster_dense_iff_components` — which these are, of points for which there are
  numbers, by the components alone.

## References

`src/libs/routers_geo/src/cluster.rs`.
-/

namespace Routers

open Components Grouping

variable {T P H E D : Type}

/-- A cluster has the points it was made of. -/
theorem Clustered.points_of_tryFrom {shapes : Shapes P H E} {toPoint : T → P} {points : List T}
    {cluster : Clustered T P H} (h : Clustered.tryFrom shapes toPoint points = .ok cluster) :
    cluster.points = points := by
  rw [Clustered.tryFrom] at h
  split at h
  · cases h
  · split at h
    · cases h
    · split at h
      · cases h
      · cases h
        rfl

namespace Cluster

/-! ### The groups -/

/-- What a number has for a group, after one point more. -/
theorem groups_concat (value : List (ℕ × T)) (p : ℕ × T) :
    groups (value ++ [p])
      = (groups value).insert p.1 (((groups value).get? p.1).getD [] ++ [p.2]) := by
  rw [groups, List.foldl_append, List.foldl_cons, List.foldl_nil, ← groups]
  cases (groups value).get? p.1 <;> rfl

/-- **A number has its points for a group**, in their order. -/
theorem getD_get?_groups (value : List (ℕ × T)) (m : ℕ) :
    ((groups value).get? m).getD [] = (value.filter fun p => p.1 = m).map Prod.snd := by
  induction value using List.reverseRecOn with
  | nil => rfl
  | append_singleton value p ih =>
    rw [groups_concat, IndexMap.get?_insert, List.filter_append, List.map_append, ← ih]
    by_cases h : p.1 = m
    · simp [h]
    · simp [h]

/-- A population with its numbers. -/
def numbered (population : List T) (number : ℕ → ℕ) : List (ℕ × T) :=
  population.zipIdx.map fun p => (number p.2, p.1)

/-- The points that have a number. -/
def group (population : List T) (number : ℕ → ℕ) (m : ℕ) : List T :=
  itemsAt population fun i => number i = m

theorem getD_get?_numbered (population : List T) (number : ℕ → ℕ) (m : ℕ) :
    ((groups (numbered population number)).get? m).getD [] = group population number m := by
  rw [getD_get?_groups, numbered, List.filter_map, List.map_map]
  rfl

/-- The numbers in the order in which their groups come out. -/
theorem exists_arrange {arrange : List (ℕ × List T) → List (ℕ × List T)}
    (harrange : ∀ l, (arrange l).Perm l) (population : List T) (number : ℕ → ℕ) :
    ∃ ks : List ℕ, ks.Nodup ∧ (∀ i < population.length, number i ∈ ks) ∧
      (arrange (groups (numbered population number)).entries).map Prod.snd
        = ks.map (group population number) := by
  have hperm := harrange (groups (numbered population number)).entries
  refine ⟨(arrange (groups (numbered population number)).entries).map Prod.fst, ?_, ?_, ?_⟩
  · exact (hperm.map Prod.fst).nodup_iff.mpr (groups (numbered population number)).keys_nodup
  · intro i hi
    have hmem :
        population[i] ∈ ((groups (numbered population number)).get? (number i)).getD [] := by
      rw [getD_get?_numbered]
      exact mem_itemsAt.mpr ⟨i, List.getElem?_eq_getElem hi, decide_eq_true rfl⟩
    cases hget : (groups (numbered population number)).get? (number i) with
    | none =>
      rw [hget] at hmem
      exact absurd hmem List.not_mem_nil
    | some l =>
      exact List.mem_map_of_mem (hperm.mem_iff.mpr (IndexMap.mem_entries_iff.mpr hget))
  · rw [List.map_map]
    refine List.map_congr_left fun p hp => ?_
    have hget := IndexMap.mem_entries_iff.mp (hperm.mem_iff.mp hp)
    rw [Function.comp_apply, ← getD_get?_numbered, hget]
    rfl

/-! ### What comes out -/

section Take

variable (shapes : Shapes P H E) (toPoint : T → P) (population : List T) (number : ℕ → ℕ)

/-- Three or more points have the number. -/
def large (m : ℕ) : Bool := 3 ≤ (group population number m).length

/-- The group of the number is a cluster. -/
def formed (m : ℕ) : Bool :=
  large population number m &&
    (Clustered.tryFrom shapes toPoint (group population number m)).toOption.isSome

/-- Where a point is, of the clusters of some numbers in this order. -/
def placeOf (fs : List ℕ) (i : ℕ) : Option ℕ :=
  if large population number (number i) then some (fs.idxOf (number i)) else none

theorem foldl_take (ks : List ℕ) (out : Cluster T P H) :
    ((ks.map (group population number)).foldl (take shapes toPoint) out).noise
        = out.noise ++ (ks.filter fun m => !large population number m).flatMap
            (group population number) ∧
      ((ks.map (group population number)).foldl (take shapes toPoint) out).clustered.map
          Clustered.points
        = out.clustered.map Clustered.points ++
          (ks.filter (formed shapes toPoint population number)).map (group population number) := by
  induction ks generalizing out with
  | nil => simp
  | cons m ks ih =>
    rw [List.map_cons, List.foldl_cons]
    obtain ⟨hnoise, hclustered⟩ := ih (take shapes toPoint out (group population number m))
    rw [hnoise, hclustered]
    by_cases hlarge : 3 ≤ (group population number m).length
    · have hlarge' : large population number m = true := decide_eq_true hlarge
      rw [take, if_pos hlarge]
      cases htry : Clustered.tryFrom shapes toPoint (group population number m) with
      | error error =>
        have hformed : formed shapes toPoint population number m = false := by
          rw [formed, htry]
          simp [Except.toOption]
        simp [hlarge', hformed]
      | ok cluster =>
        have hformed : formed shapes toPoint population number m = true := by
          rw [formed, hlarge', htry]
          rfl
        simp [hlarge', hformed, Clustered.points_of_tryFrom htry]
    · have hlarge' : large population number m = false := decide_eq_false hlarge
      have hformed : formed shapes toPoint population number m = false := by
        rw [formed, hlarge', Bool.false_and]
      rw [take, if_neg hlarge]
      simp [hlarge', hformed]

variable {shapes toPoint population number}

theorem placeOf_eq_some_iff {fs : List ℕ} {i g : ℕ} :
    placeOf population number fs i = some g ↔
      large population number (number i) = true ∧ fs.idxOf (number i) = g := by
  rw [placeOf]
  split_ifs with hi
  · simp [hi]
  · simp [hi]

theorem exists_of_large {m : ℕ} (h : large population number m = true) :
    ∃ i < population.length, number i = m := by
  have hlength : 3 ≤ (group population number m).length := of_decide_eq_true h
  obtain ⟨x, hx⟩ := List.exists_mem_of_length_pos (Nat.zero_lt_of_lt hlength)
  obtain ⟨i, hi, hm⟩ := mem_itemsAt.mp hx
  exact ⟨i, (List.getElem?_eq_some_iff.mp hi).1, of_decide_eq_true hm⟩

theorem large_of_formed {m : ℕ} (h : formed shapes toPoint population number m = true) :
    large population number m = true :=
  ((Bool.and_eq_true _ _).mp h).1

theorem formed_iff {m : ℕ} : formed shapes toPoint population number m = true ↔
    large population number m = true ∧ ∃ cluster : Clustered T P H,
      Clustered.tryFrom shapes toPoint (group population number m) = .ok cluster := by
  rw [formed, Bool.and_eq_true]
  refine and_congr_right fun _ => ?_
  cases Clustered.tryFrom shapes toPoint (group population number m) with
  | error error => simp [Except.toOption]
  | ok cluster => simp [Except.toOption]

variable (shapes toPoint population number) in
/-- **What comes out of the regrouping**: the points with small groups are noise, and the large
groups that have a shape are clusters. -/
theorem tryFrom_spec {arrange : List (ℕ × List T) → List (ℕ × List T)}
    (harrange : ∀ l, (arrange l).Perm l) : ∃ fs : List ℕ, fs.Nodup ∧
      (∀ m, m ∈ fs ↔ formed shapes toPoint population number m = true) ∧
      (tryFrom shapes toPoint arrange (numbered population number)).noise.Perm
        (itemsAt population fun i => !large population number (number i)) ∧
      (tryFrom shapes toPoint arrange (numbered population number)).clustered.map Clustered.points
        = fs.map (group population number) := by
  obtain ⟨ks, hks, hmem, harranged⟩ := exists_arrange harrange population number
  obtain ⟨hnoise, hclustered⟩ := foldl_take shapes toPoint population number ks ⟨[], []⟩
  refine ⟨ks.filter (formed shapes toPoint population number), hks.filter _, fun m => ?_, ?_, ?_⟩
  · rw [List.mem_filter, and_iff_right_of_imp]
    intro hformed
    obtain ⟨i, hi, rfl⟩ := exists_of_large (large_of_formed hformed)
    exact hmem i hi
  · rw [tryFrom, harranged, hnoise, List.nil_append]
    refine (flatMap_itemsAt_perm population number (hks.filter _)).trans (List.Perm.of_eq ?_)
    refine itemsAt_congr fun i hi => ?_
    simp [hmem i hi]
  · rw [tryFrom, harranged, hclustered]
    rfl

end Take

end Cluster

/-! ### Placing the points -/

namespace IntoCluster

variable [LT D] [DecidableLT D]

/-- Every position is in the noise, or in one of the clusters.  Those in a cluster are core points,
and two of them are in one cluster where a chain of core points links them. -/
structure Placed (config : IntoCluster P D) (toPoint : T → P) (population : List T)
    (out : Cluster T P H) (place : ℕ → Option ℕ) : Prop where
  noise : out.noise.Perm (itemsAt population fun i => place i = none)
  points : ∀ (g : ℕ) (cluster : Clustered T P H), out.clustered[g]? = some cluster →
    cluster.points.Perm (itemsAt population fun i => place i = some g)
  lt : ∀ i g, i < population.length → place i = some g → g < out.clustered.length
  core : ∀ i g, i < population.length → place i = some g →
    config.IsCore (population.map toPoint) i
  linked : ∀ i j g g', i < population.length → j < population.length →
    place i = some g → place j = some g' →
      (g = g' ↔ config.IsCore (population.map toPoint) i ∧
        config.IsCore (population.map toPoint) j ∧
        Linked (config.IsCore (population.map toPoint)) (config.Near (population.map toPoint)) i j)

open Classical in
/-- The number of the point at a position. -/
noncomputable def numberAt (self : IntoCluster P D) (population : List P) (i : ℕ) : ℕ :=
  if self.IsCore population i then
    (Classification.core (rank (self.IsCore population) (self.Near population) i)).number
  else Classification.noise.number

/-- Where three or more points have one number, they are core, linked and have a shape. -/
def Regular (self : IntoCluster P D) (shapes : Shapes P H E) (toPoint : T → P)
    (population : List T) : Prop :=
  ∀ m, 3 ≤ (Cluster.group population (self.numberAt (population.map toPoint)) m).length →
    (∀ i j, i < population.length → j < population.length →
      self.numberAt (population.map toPoint) i = m → self.numberAt (population.map toPoint) j = m →
        self.IsCore (population.map toPoint) i ∧
          Linked (self.IsCore (population.map toPoint)) (self.Near (population.map toPoint)) i j) ∧
    ∃ cluster : Clustered T P H, Clustered.tryFrom shapes toPoint
      (Cluster.group population (self.numberAt (population.map toPoint)) m) = .ok cluster

section Place

variable {self : IntoCluster P D} {shapes : Shapes P H E} {toPoint : T → P} {population : List T}
  {out : Cluster T P H} {place : ℕ → Option ℕ}

/-- **Nothing is lost**: the noise and the clusters have the population's length. -/
theorem Placed.length (h : self.Placed toPoint population out place) :
    out.noise.length + (out.clustered.map fun cluster => cluster.points.length).sum
      = population.length := by
  have hclustered : out.clustered.map (fun cluster => cluster.points.length)
      = (List.range out.clustered.length).map fun g =>
        (itemsAt population fun i => place i = some g).length := by
    refine List.ext_getElem (by simp) fun g hg _ => ?_
    rw [List.length_map] at hg
    rw [List.getElem_map, List.getElem_map, List.getElem_range]
    exact (h.points g _ (List.getElem?_eq_getElem hg)).length_eq
  rw [hclustered, h.noise.length_eq]
  refine (length_eq_iff place List.nodup_range).mpr fun i hi g hg => ?_
  exact List.mem_range.mpr (h.lt i g hi hg)

section Perm

variable (h : self.Placed toPoint population out place) {q : ℕ → Bool} {g : ℕ}
  (hperm : (itemsAt population q).Perm (itemsAt population fun i => place i = some g))
include h hperm

/-- Points like those of a cluster are core. -/
theorem Placed.isCore_of_perm {i : ℕ} (hi : i < population.length) (hq : q i = true) :
    self.IsCore (population.map toPoint) i := by
  have hx := mem_itemsAt.mpr ⟨i, List.getElem?_eq_getElem hi, hq⟩
  obtain ⟨i', hi', hplace⟩ := mem_itemsAt.mp (hperm.mem_iff.mp hx)
  have hcore := h.core i' g (List.getElem?_eq_some_iff.mp hi').1 (of_decide_eq_true hplace)
  refine hcore.congr ?_
  rw [List.getElem?_map, List.getElem?_map, hi', List.getElem?_eq_getElem hi]

/-- They are linked: two of them are at the ends of a chain as points of the cluster are. -/
theorem Placed.linked_of_perm {i j : ℕ} (hi : i < population.length) (hj : j < population.length)
    (hqi : q i = true) (hqj : q j = true) :
    Linked (self.IsCore (population.map toPoint)) (self.Near (population.map toPoint)) i j := by
  rcases eq_or_ne i j with rfl | hne
  · exact .refl
  · obtain ⟨i', j', hne', hi', hj', hplace, hplace'⟩ := exists_pair_of_perm hperm hne
      (List.getElem?_eq_getElem hi) (List.getElem?_eq_getElem hj) hqi hqj
    obtain ⟨-, -, hlinked⟩ := (h.linked i' j' g g (List.getElem?_eq_some_iff.mp hi').1
      (List.getElem?_eq_some_iff.mp hj').1 (of_decide_eq_true hplace)
      (of_decide_eq_true hplace')).mp rfl
    have hsame : (population.map toPoint)[i']? = (population.map toPoint)[i]? := by
      rw [List.getElem?_map, List.getElem?_map, hi', List.getElem?_eq_getElem hi]
    have hsame' : (population.map toPoint)[j']? = (population.map toPoint)[j]? := by
      rw [List.getElem?_map, List.getElem?_map, hj', List.getElem?_eq_getElem hj]
    exact hlinked.replace hne'
      (fun k hmarked hnear => ⟨hmarked.congr hsame, hnear.congr_left hsame⟩)
      (fun k hmarked hnear => ⟨hmarked.congr hsame', hnear.congr_right hsame'⟩)

end Perm

/-- Linked core points have one number. -/
theorem numberAt_eq (hsymm : ∀ p q, self.distance p q = self.distance q p) {points : List P}
    {i j : ℕ} (hi : self.IsCore points i) (hj : self.IsCore points j)
    (h : Linked (self.IsCore points) (self.Near points) i j) :
    self.numberAt points i = self.numberAt points j := by
  rw [numberAt, numberAt, if_pos hi, if_pos hj]
  rw [(rank_eq_iff (fun _ _ => Near.symm hsymm) hi hj).mpr h]

/-- A cluster is the group of one of the numbers. -/
theorem exists_group {number : ℕ → ℕ} {fs : List ℕ}
    (hclustered : out.clustered.map Clustered.points = fs.map (Cluster.group population number))
    {g : ℕ} {cluster : Clustered T P H} (hg : out.clustered[g]? = some cluster) :
    ∃ m, fs[g]? = some m ∧ Cluster.group population number m = cluster.points := by
  have hpoints : (fs.map (Cluster.group population number))[g]? = some cluster.points := by
    rw [← hclustered, List.getElem?_map, hg]
    rfl
  rwa [List.getElem?_map, Option.map_eq_some_iff] at hpoints

section Spec

variable {fs : List ℕ} (hfs : fs.Nodup)
  (hmem : ∀ m, m ∈ fs ↔
    Cluster.formed shapes toPoint population (self.numberAt (population.map toPoint)) m = true)
  (hnoise : out.noise.Perm (itemsAt population fun i =>
    !Cluster.large population (self.numberAt (population.map toPoint))
      (self.numberAt (population.map toPoint) i)))
  (hclustered : out.clustered.map Clustered.points
    = fs.map (Cluster.group population (self.numberAt (population.map toPoint))))
include hfs hmem hnoise hclustered

/-- The points of a regular population are placed by their numbers. -/
theorem Regular.placed (hsymm : ∀ p q, self.distance p q = self.distance q p)
    (h : self.Regular shapes toPoint population) :
    self.Placed toPoint population out
      (Cluster.placeOf population (self.numberAt (population.map toPoint)) fs) := by
  set number := self.numberAt (population.map toPoint)
  have hlarge : ∀ m, Cluster.large population number m = true → m ∈ fs := by
    intro m hm
    exact (hmem m).mpr (Cluster.formed_iff.mpr ⟨hm, (h m (of_decide_eq_true hm)).2⟩)
  exact
    { noise := by
        refine hnoise.trans (List.Perm.of_eq (itemsAt_congr fun i _ => ?_))
        rw [Cluster.placeOf]
        split_ifs with hi
        · simp [hi]
        · simp [hi]
      points := by
        intro g cluster hg
        obtain ⟨m, hm, hgroup⟩ := exists_group hclustered hg
        obtain ⟨hg', rfl⟩ := List.getElem?_eq_some_iff.mp hm
        rw [← hgroup]
        refine List.Perm.of_eq (itemsAt_congr fun i _ => decide_eq_decide.mpr ?_)
        rw [Cluster.placeOf_eq_some_iff]
        constructor
        · intro hi
          rw [hi]
          exact ⟨Cluster.large_of_formed ((hmem _).mp (List.getElem_mem hg')),
            hfs.idxOf_getElem g hg'⟩
        · rintro ⟨hi, rfl⟩
          exact (List.getElem_idxOf (List.idxOf_lt_length_iff.mpr (hlarge _ hi))).symm
      lt := by
        intro i g _ hg
        obtain ⟨hi, rfl⟩ := Cluster.placeOf_eq_some_iff.mp hg
        have hlength : out.clustered.length = fs.length := by
          simpa using congrArg List.length hclustered
        rw [hlength]
        exact List.idxOf_lt_length_iff.mpr (hlarge _ hi)
      core := by
        intro i g hlt hg
        obtain ⟨hi, rfl⟩ := Cluster.placeOf_eq_some_iff.mp hg
        exact ((h _ (of_decide_eq_true hi)).1 i i hlt hlt rfl rfl).1
      linked := by
        intro i j g g' hlt hlt' hg hg'
        obtain ⟨hi, rfl⟩ := Cluster.placeOf_eq_some_iff.mp hg
        obtain ⟨hj, rfl⟩ := Cluster.placeOf_eq_some_iff.mp hg'
        rw [List.idxOf_inj (hlarge _ hi)]
        constructor
        · intro heq
          obtain ⟨hcore, hlinked⟩ := (h _ (of_decide_eq_true hi)).1 i j hlt hlt' rfl heq.symm
          exact ⟨hcore, hlinked.isMarked hcore, hlinked⟩
        · rintro ⟨hcore, hcore', hlinked⟩
          exact numberAt_eq hsymm hcore hcore' hlinked }

/-- Where the points are placed, large groups have shapes: a group without one would be missing. -/
theorem Placed.formed (h : self.Placed toPoint population out place) {i : ℕ}
    (hi : i < population.length)
    (hlarge : Cluster.large population (self.numberAt (population.map toPoint))
      (self.numberAt (population.map toPoint) i) = true) :
    self.numberAt (population.map toPoint) i ∈ fs := by
  set number := self.numberAt (population.map toPoint)
  let f : ℕ → Option ℕ := fun i =>
    if Cluster.large population number (number i) then some (number i) else none
  have hnone : (itemsAt population fun i => f i = none).length = out.noise.length := by
    rw [hnoise.length_eq]
    refine congrArg List.length (itemsAt_congr fun i _ => ?_)
    by_cases hi : Cluster.large population number (number i) = true
    · simp [f, hi]
    · simp [f, hi]
  have hsome : (fs.map fun m => (itemsAt population fun i => f i = some m).length)
      = out.clustered.map fun cluster => cluster.points.length := by
    have hlengths := congrArg (List.map List.length) hclustered
    rw [List.map_map, List.map_map] at hlengths
    refine Eq.trans (List.map_congr_left fun m hm => ?_) hlengths.symm
    have hm' := Cluster.large_of_formed ((hmem m).mp hm)
    refine congrArg List.length (itemsAt_congr fun i _ => decide_eq_decide.mpr ?_)
    constructor
    · intro hf
      by_cases hi : Cluster.large population number (number i) = true
      · simpa [f, hi] using hf
      · simp [f, hi] at hf
    · rintro rfl
      exact if_pos hm'
  have htotal := h.length
  rw [← hnone, ← hsome] at htotal
  exact (length_eq_iff f hfs).mp htotal i hi _ (if_pos hlarge)

/-- Where the points are placed, the population is regular. -/
theorem Placed.regular (h : self.Placed toPoint population out place) :
    self.Regular shapes toPoint population := by
  set number := self.numberAt (population.map toPoint)
  intro m hm
  obtain ⟨k, hk, rfl⟩ := Cluster.exists_of_large (decide_eq_true hm)
  have hfound := h.formed hfs hmem hnoise hclustered hk (decide_eq_true hm)
  obtain ⟨g, hg, hgk⟩ := List.getElem_of_mem hfound
  -- the group is a cluster
  have hpoints : (out.clustered.map Clustered.points)[g]? =
      some (Cluster.group population number (number k)) := by
    rw [hclustered, List.getElem?_map, List.getElem?_eq_getElem hg, hgk]
    rfl
  rw [List.getElem?_map, Option.map_eq_some_iff] at hpoints
  obtain ⟨cluster, hcluster, hgroup⟩ := hpoints
  have hperm : (itemsAt population fun i => number i = number k).Perm
      (itemsAt population fun i => place i = some g) := by
    rw [Cluster.group] at hgroup
    rw [← hgroup]
    exact h.points g cluster hcluster
  refine ⟨fun i j hi hj hik hjk => ?_, (Cluster.formed_iff.mp ((hmem _).mp hfound)).2⟩
  exact ⟨h.isCore_of_perm hperm hi (decide_eq_true hik),
    h.linked_of_perm hperm hi hj (decide_eq_true hik) (decide_eq_true hjk)⟩

/-- The points can be placed exactly where the population is regular. -/
theorem placed_iff_regular (hsymm : ∀ p q, self.distance p q = self.distance q p) :
    (∃ place, self.Placed toPoint population out place) ↔
      self.Regular shapes toPoint population := by
  constructor
  · rintro ⟨place, h⟩
    exact h.regular hfs hmem hnoise hclustered
  · intro h
    exact ⟨_, h.placed hfs hmem hnoise hclustered hsymm⟩

end Spec

end Place

section Short

variable {self : IntoCluster P D} {points : List P} {i j : ℕ}

end Short

/-- The classes are numbered by the components of the core points. -/
theorem number_classes {self : IntoCluster P D} {points : List P} {classes : List Classification}
    (hclass : ∀ i r : ℕ, classes[i]? = some (Classification.core r) ↔ self.IsCore points i ∧
      r = rank (self.IsCore points) (self.Near points) i) {i : ℕ} (hi : i < classes.length) :
    classes[i].number = self.numberAt points i := by
  rw [numberAt]
  by_cases hcore : self.IsCore points i
  · have hget := (hclass i _).mpr ⟨hcore, rfl⟩
    rw [List.getElem?_eq_getElem hi, Option.some.injEq] at hget
    rw [hget, if_pos hcore]
  · rw [if_neg hcore]
    cases hget : classes[i] with
    | core r =>
      have hsome : classes[i]? = some (Classification.core r) := hget ▸ List.getElem?_eq_getElem hi
      exact absurd ((hclass i r).mp hsome).1 hcore
    | edge _ => rfl
    | noise => rfl

/-- What a clustering does: it regroups the population by the numbers of its points. -/
theorem exists_cluster (self : IntoCluster P D) (shapes : Shapes P H E) (toPoint : T → P)
    {arrange : List (ℕ × List T) → List (ℕ × List T)} (population : List T)
    (hsymm : ∀ p q, self.distance p q = self.distance q p) (harrange : ∀ l, (arrange l).Perm l) :
    ∃ (out : Cluster T P H) (fs : List ℕ),
      self.cluster shapes toPoint arrange population = some out ∧ fs.Nodup ∧
      (∀ m, m ∈ fs ↔ Cluster.formed shapes toPoint population
        (self.numberAt (population.map toPoint)) m = true) ∧
      out.noise.Perm (itemsAt population fun i =>
        !Cluster.large population (self.numberAt (population.map toPoint))
          (self.numberAt (population.map toPoint) i)) ∧
      out.clustered.map Clustered.points
        = fs.map (Cluster.group population (self.numberAt (population.map toPoint))) := by
  obtain ⟨classes, hc, hlength, hclass⟩ := self.classify_spec (population.map toPoint) hsymm
  rw [List.length_map] at hlength
  have hnumbered : ((classes.zip population).map fun p => (p.1.number, p.2))
      = Cluster.numbered population (self.numberAt (population.map toPoint)) := by
    refine List.ext_getElem (by simp [Cluster.numbered, hlength]) fun i hi _ => ?_
    have hi' : i < classes.length := by
      rw [List.length_map, List.length_zip] at hi
      omega
    simp [Cluster.numbered, number_classes hclass hi']
  obtain ⟨fs, hfs, hmem, hnoise, hclustered⟩ := Cluster.tryFrom_spec shapes toPoint population
    (self.numberAt (population.map toPoint)) harrange
  exact ⟨_, fs, (congrArg (Option.map _) hc).trans (congrArg some (congrArg _ hnumbered)), hfs,
    hmem, hnoise, hclustered⟩

/-- **A clustering loses nothing, and its clusters are dense, exactly for regular populations**:
every point is in the noise or in one cluster, those that are not core are in the noise, and two
are in one cluster where a chain of core points links them. -/
theorem cluster_dense_iff (self : IntoCluster P D) (shapes : Shapes P H E) (toPoint : T → P)
    (arrange : List (ℕ × List T) → List (ℕ × List T)) (population : List T)
    (hsymm : ∀ p q, self.distance p q = self.distance q p)
    (harrange : ∀ l, (arrange l).Perm l) :
    ∃ out, self.cluster shapes toPoint arrange population = some out ∧
      ((∃ place, self.Placed toPoint population out place) ↔
        self.Regular shapes toPoint population) := by
  obtain ⟨out, fs, hout, hfs, hmem, hnoise, hclustered⟩ :=
    self.exists_cluster shapes toPoint population hsymm harrange
  exact ⟨out, hout, placed_iff_regular hfs hmem hnoise hclustered hsymm⟩

/-- Clustering on a grid, a third of a degree a step, by how many steps points are apart. -/
def onGrid (epsilon cCapacity : ℕ) : IntoCluster (ℤ × ℤ) ℕ where
  epsilon := epsilon
  cCapacity := cCapacity
  distance := fun p q => (p.1 - q.1).natAbs + (p.2 - q.2).natAbs

/-- Triangles with their centroids, one of which has the geohash given. -/
def triangle (geohash : String) : Shapes (ℤ × ℤ) (List (ℤ × ℤ)) Unit where
  convexHull := id
  centroid := fun hull =>
    if hull = [] then none
    else some ((hull.map Prod.fst).sum / hull.length, (hull.map Prod.snd).sum / hull.length)
  encode := fun _ _ => .ok geohash.toList

theorem onGrid_distance_comm (epsilon cCapacity : ℕ) (p q : ℤ × ℤ) :
    (onGrid epsilon cCapacity).distance p q = (onGrid epsilon cCapacity).distance q p := by
  simp only [onGrid]
  omega

/-- Three points near each other. -/
def nearPoints : List (ℤ × ℤ) := [(0, 0), (2, 1), (1, 2)]

/-- They are all core, where two are enough for that, -/
theorem isCore_nearPoints {i : ℕ} (hi : i < nearPoints.length) :
    (onGrid 4 2).IsCore (nearPoints.map id) i := by
  have hcore : ∀ p ∈ nearPoints,
      (onGrid 4 2).cCapacity ≤ ((onGrid 4 2).rangeQuery p nearPoints).length := by decide
  rw [List.map_id]
  exact ⟨_, List.getElem?_eq_getElem hi, hcore _ (List.getElem_mem hi)⟩

/-- and any of them have a shape. -/
theorem exists_triangle {points : List (ℤ × ℤ)} (h : 3 ≤ points.length) :
    ∃ cluster : Clustered (ℤ × ℤ) (ℤ × ℤ) (List (ℤ × ℤ)),
      Clustered.tryFrom (triangle "s001zsdt") id points = .ok cluster := by
  cases points with
  | nil => cases h
  | cons p ps => exact ⟨_, rfl⟩

/-- Two being enough for a core point, they are a cluster. -/
theorem cluster_dense_iff_near : ∃ out place,
    (onGrid 4 2).cluster (triangle "s001zsdt") id id nearPoints = some out ∧
      (onGrid 4 2).Placed id nearPoints out place := by
  obtain ⟨out, hout, hiff⟩ := cluster_dense_iff (onGrid 4 2) (triangle "s001zsdt") id id
    nearPoints (onGrid_distance_comm 4 2) fun _ => .refl _
  have hdistance : ∀ p ∈ nearPoints, ∀ q ∈ nearPoints,
      (onGrid 4 2).distance p q < (onGrid 4 2).epsilon := by decide
  have hregular : (onGrid 4 2).Regular (triangle "s001zsdt") id nearPoints := by
    intro m hm
    refine ⟨fun i j hi hj _ _ => ⟨isCore_nearPoints hi, ?_⟩, exists_triangle hm⟩
    refine .single (isCore_nearPoints hi) (isCore_nearPoints hj) ?_
    rw [List.map_id]
    exact ⟨_, _, List.getElem?_eq_getElem hi, List.getElem?_eq_getElem hj,
      hdistance _ (List.getElem_mem hi) _ (List.getElem_mem hj)⟩
  obtain ⟨place, hplaced⟩ := hiff.mpr hregular
  exact ⟨out, place, hout, hplaced⟩

/-- **Three points far from each other are a cluster** as well, though none is core. -/
theorem cluster_not_placed :
    (∀ p q, (onGrid 3 10).distance p q = (onGrid 3 10).distance q p) ∧
      (∀ p, (onGrid 3 10).distance p p = 0) ∧
      ∃ out,
        (onGrid 3 10).cluster (triangle "sb03vk8v") id id [(3, 0), (6, 3), (300, 0)] = some out ∧
        ¬ ∃ place, (onGrid 3 10).Placed id [(3, 0), (6, 3), (300, 0)] out place := by
  refine ⟨onGrid_distance_comm 3 10, fun p => by simp [onGrid], ⟨[], [⟨13857576160131563736,
    [(3, 0), (6, 3), (300, 0)], [(3, 0), (6, 3), (300, 0)], (103, 1)⟩]⟩, rfl, ?_⟩
  rintro ⟨place, h⟩
  cases hplace : place 0 with
  | none =>
    have hmem : (3, 0) ∈ itemsAt [((3 : ℤ), (0 : ℤ)), (6, 3), (300, 0)] fun i => place i = none :=
      mem_itemsAt.mpr ⟨0, rfl, decide_eq_true hplace⟩
    exact absurd (h.noise.mem_iff.mpr hmem) List.not_mem_nil
  | some g =>
    obtain ⟨p, hp, hle⟩ := h.core 0 g (by decide) hplace
    cases hp
    exact absurd hle (by decide)

end IntoCluster

end Routers
