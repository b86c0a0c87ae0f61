import Routers.Library.Layered

/-!
# Greedy segmentation

Boundaries lie between the layers of a layered graph, and a boundary is crossed from a layer
where some path from there goes over it.  A graph no path runs through is cut greedily: at the
first boundary that is not crossed from the first layer, then at the first one that is not
crossed from the layer behind that cut, and so on.

## Main definitions

* `Graph.Reach` — the nodes that paths over allowed edges lead to.
* `Greedy`, `SegmentStart` — the greedy cuts, and the layers a segment starts from.

## Main results

* `Greedy.unique` — there is one way to cut greedily.
* `Greedy.restrict_iff` — **when the greedy cuts are the same for a narrower crossing.**
-/

namespace Layered

/-! ### Reached nodes -/

namespace Graph

variable {α : Type*}

/-- Every edge of the path `p` through layer `n` is allowed. -/
def Allowed (G : Graph α) (allowed : α → Prop) (n : ℕ) (p : ℕ → ℕ) : Prop :=
  ∀ k < n, allowed (G.edge k (p k) (p (k + 1)))

/-- Node `j` of layer `n` is reached by a path over allowed edges. -/
def Reach (G : Graph α) (allowed : α → Prop) (n j : ℕ) : Prop :=
  ∃ p, G.IsPath n p ∧ G.Allowed allowed n p ∧ p n = j

variable {G : Graph α} {allowed : α → Prop}

theorem reach_zero {j : ℕ} : G.Reach allowed 0 j ↔ j < G.width 0 := by
  constructor
  · rintro ⟨p, hp, -, rfl⟩
    exact hp 0 le_rfl
  · intro hj
    refine ⟨fun _ => j, fun k hk => ?_, fun k hk => absurd hk (Nat.not_lt_zero k), rfl⟩
    rwa [Nat.le_zero.mp hk]

/-- A node is reached over an allowed edge from one that is reached. -/
theorem reach_succ {n j : ℕ} : G.Reach allowed (n + 1) j ↔
    j < G.width (n + 1) ∧ ∃ i, G.Reach allowed n i ∧ allowed (G.edge n i j) := by
  constructor
  · rintro ⟨p, hp, hallowed, rfl⟩
    refine ⟨hp (n + 1) le_rfl, p n, ⟨p, ?_, ?_, rfl⟩, hallowed n (Nat.lt_succ_self n)⟩
    · exact fun k hk => hp k (hk.trans (Nat.le_succ n))
    · exact fun k hk => hallowed k (hk.trans (Nat.lt_succ_self n))
  · rintro ⟨hj, i, ⟨p, hp, hallowed, rfl⟩, hedge⟩
    have hbelow : ∀ k ≤ n, Function.update p (n + 1) j k = p k := fun k hk =>
      Function.update_of_ne (by omega) ..
    refine ⟨Function.update p (n + 1) j, fun k hk => ?_, fun k hk => ?_, Function.update_self ..⟩
    · rcases Nat.lt_or_ge n k with hlt | hle
      · obtain rfl : k = n + 1 := by omega
        rwa [Function.update_self]
      · rw [hbelow k hle]
        exact hp k hle
    · rw [hbelow k (by omega)]
      rcases Nat.lt_or_ge k n with hlt | hle
      · rw [hbelow (k + 1) hlt]
        exact hallowed k hlt
      · obtain rfl : k = n := by omega
        rwa [Function.update_self]

end Graph

/-! ### Greedy cuts -/

/-- The cuts below boundary `n`, from layer `s` on: each is the first boundary that is not
crossed from the layer behind the cut before it. -/
inductive Greedy (cross : ℕ → ℕ → Prop) (n : ℕ) : ℕ → List ℕ → Prop
  | whole {s} : (∀ b, s ≤ b → b < n → cross s b) → Greedy cross n s []
  | cut {s b cuts} : s ≤ b → b < n → (∀ c, s ≤ c → c < b → cross s c) → ¬ cross s b →
      Greedy cross n (b + 1) cuts → Greedy cross n s (b :: cuts)

/-- The layers a segment of the greedy cuts starts from. -/
inductive SegmentStart (cross : ℕ → ℕ → Prop) (n s : ℕ) : ℕ → Prop
  | first : SegmentStart cross n s s
  | behind {o b} : SegmentStart cross n s o → o ≤ b → b < n → (∀ c, o ≤ c → c < b → cross o c) →
      ¬ cross o b → SegmentStart cross n s (b + 1)

section Greedy

variable {cross cross' : ℕ → ℕ → Prop} {n s : ℕ} {cuts : List ℕ}

theorem Greedy.le_of_mem (h : Greedy cross n s cuts) {b : ℕ} (hb : b ∈ cuts) : s ≤ b ∧ b < n := by
  induction h with
  | whole _ => cases hb
  | cut hle hlt _ _ _ ih =>
    rcases List.mem_cons.mp hb with rfl | hrest
    · exact ⟨hle, hlt⟩
    · have := ih hrest
      omega

/-- The cuts are increasing. -/
theorem Greedy.pairwise (h : Greedy cross n s cuts) : cuts.Pairwise (· < ·) := by
  induction h with
  | whole _ => exact List.Pairwise.nil
  | cut _ _ _ _ hrest ih => exact List.Pairwise.cons (fun b hb => (hrest.le_of_mem hb).1) ih

/-- There are no cuts where every boundary is crossed. -/
theorem Greedy.eq_nil_iff (h : Greedy cross n s cuts) :
    cuts = [] ↔ ∀ b, s ≤ b → b < n → cross s b := by
  cases h with
  | whole hcross => exact ⟨fun _ => hcross, fun _ => rfl⟩
  | cut hle hlt _ hnot _ => exact ⟨(nomatch ·), fun hcross => absurd (hcross _ hle hlt) hnot⟩

/-- There is one first boundary that is not crossed. -/
theorem eq_of_first {b c : ℕ} (hb : s ≤ b) (hbefore : ∀ d, s ≤ d → d < b → cross s d)
    (hnot : ¬ cross s b) (hc : s ≤ c) (hbefore' : ∀ d, s ≤ d → d < c → cross s d)
    (hnot' : ¬ cross s c) : b = c := by
  rcases Nat.lt_trichotomy b c with hlt | heq | hgt
  · exact absurd (hbefore' b hb hlt) hnot
  · exact heq
  · exact absurd (hbefore c hc hgt) hnot'

/-- There is one way to cut greedily. -/
theorem Greedy.unique (h : Greedy cross n s cuts) {cuts' : List ℕ} (h' : Greedy cross n s cuts') :
    cuts = cuts' := by
  induction h generalizing cuts' with
  | whole hcross => exact (h'.eq_nil_iff.mpr hcross).symm
  | cut hle hlt hbefore hnot _ ih =>
    cases h' with
    | whole hcross => exact absurd (hcross _ hle hlt) hnot
    | cut hle' _ hbefore' hnot' hrest' =>
      obtain rfl := eq_of_first hle hbefore hnot hle' hbefore' hnot'
      rw [ih hrest']

theorem SegmentStart.of_behind {b o : ℕ} (hle : s ≤ b) (hlt : b < n)
    (hbefore : ∀ c, s ≤ c → c < b → cross s c) (hnot : ¬ cross s b)
    (h : SegmentStart cross n (b + 1) o) : SegmentStart cross n s o := by
  induction h with
  | first => exact .behind .first hle hlt hbefore hnot
  | behind _ hle' hlt' hbefore' hnot' ih => exact .behind ih hle' hlt' hbefore' hnot'

theorem SegmentStart.eq_of_whole (hcross : ∀ b, s ≤ b → b < n → cross s b) {o : ℕ}
    (h : SegmentStart cross n s o) : o = s := by
  induction h with
  | first => rfl
  | behind _ hle hlt _ hnot ih =>
    subst ih
    exact absurd (hcross _ hle hlt) hnot

/-- A segment starts first of all, or behind the first cut. -/
theorem SegmentStart.cases_cut {b o : ℕ} (hle : s ≤ b) (hbefore : ∀ c, s ≤ c → c < b → cross s c)
    (hnot : ¬ cross s b) (h : SegmentStart cross n s o) : o = s ∨ SegmentStart cross n (b + 1) o := by
  induction h with
  | first => exact Or.inl rfl
  | behind _ hle' hlt' hbefore' hnot' ih =>
    right
    rcases ih with rfl | hbehind
    · obtain rfl := eq_of_first hle hbefore hnot hle' hbefore' hnot'
      exact .first
    · exact .behind hbehind hle' hlt' hbefore' hnot'

/-- **The greedy cuts are those of a narrower crossing** exactly where, from every layer a
segment starts from, what is crossed is crossed in the narrower sense. -/
theorem Greedy.restrict_iff (hsub : ∀ s b, cross' s b → cross s b)
    (hdown : ∀ s b c, cross s b → s ≤ c → c ≤ b → cross s c) (h : Greedy cross n s cuts) :
    Greedy cross' n s cuts ↔
      ∀ o, SegmentStart cross n s o → ∀ b, o ≤ b → b < n → cross o b → cross' o b := by
  induction h with
  | @whole s hcross =>
    constructor
    · intro h' o ho b hle hlt _
      obtain rfl := ho.eq_of_whole hcross
      exact h'.eq_nil_iff.mp rfl b hle hlt
    · exact fun hall => .whole fun b hle hlt => hall s .first b hle hlt (hcross b hle hlt)
  | @cut s b cuts hle hlt hbefore hnot hrest ih =>
    constructor
    · intro h' o ho c hoc hc hcross
      cases h' with
      | cut _ _ hbefore' _ hrest' =>
        rcases ho.cases_cut hle hbefore hnot with rfl | hbehind
        · rcases Nat.lt_or_ge c b with hcb | hbc
          · exact hbefore' c hoc hcb
          · exact absurd (hdown o c b hcross hle hbc) hnot
        · exact ih.mp hrest' o hbehind c hoc hc hcross
    · intro hall
      refine .cut hle hlt (fun c hsc hcb => ?_) (fun h => hnot (hsub s b h)) (ih.mpr fun o ho => ?_)
      · exact hall s .first c hsc (hcb.trans hlt) (hbefore c hsc hcb)
      · exact hall o (ho.of_behind hle hlt hbefore hnot)

end Greedy

end Layered
