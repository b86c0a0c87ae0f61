import Routers.Trellis.Solution

/-!
# The brute-force solver

The correctness reference: it walks every node path with a counter that has one
digit a layer, the last layer's digit advancing first, and keeps the first path
that is cheaper than everything before it.

## Main definitions

* `BruteForceSolver.advance` — one step of the counter.
* `BruteForceSolver.search`, `BruteForceSolver.solve` — the walk.
* `BruteForceSolver.rank` — how many paths the counter has passed.

## Main results

* `BruteForceSolver.search_spec` — the walk ends, and has met every node path from
  where it started.

## References

`src/libs/routers_trellis/src/solver/brute.rs`.
-/

namespace Routers

namespace BruteForceSolver

/-- Advance to the next combination, least significant digit first; with it, whether
all combinations are exhausted. -/
def advance (widths path : List ℕ) : List ℕ × Bool :=
  (path.zip widths).foldr
    (fun digit next =>
      if next.2 then
        if digit.1 + 1 < digit.2 then ((digit.1 + 1) :: next.1, false) else (0 :: next.1, true)
      else (digit.1 :: next.1, false))
    ([], true)

/-- The loop over all paths from `path` on, keeping the cheapest so far; `none` when
the fuel runs out. -/
def search (t : Trellis) : ℕ → List ℕ → Path → Option Path
  | 0, _, _ => none
  | fuel + 1, path, best =>
    let cost := t.pathCost path
    let best := if cost < best.cost then ⟨path, cost⟩ else best
    let next := advance t.widths path
    if next.2 then some best else search t fuel next.1 best

/-- Enumerate every possible path and pick the cheapest.  The loop runs once for each
of them, so their number is fuel enough. -/
def solve (t : Trellis) : Option (Except SolveError Path) :=
  match t.firstPending with
  | some layer => some (.error (.notResolved layer))
  | none =>
    (search t t.widths.prod (List.replicate t.layers 0) ⟨[], infW⟩).map fun best =>
      if infW ≤ best.cost then .error .unreachable else .ok best

/-! ### The counter -/

/-- The number of combinations before `path`. -/
def rank : List ℕ → List ℕ → ℕ
  | _ :: widths, digit :: path => digit * widths.prod + rank widths path
  | _, _ => 0

/-- `path` has one digit below each width. -/
abbrev InRange (widths path : List ℕ) : Prop := List.Forall₂ (· < ·) path widths

theorem rank_lt_prod : ∀ {widths path : List ℕ}, InRange widths path →
    rank widths path < widths.prod := by
  intro widths path h
  induction h with
  | nil => simp [rank]
  | @cons digit width path widths hlt _ ih =>
    rw [rank, List.prod_cons]
    calc digit * widths.prod + rank widths path
        < (digit + 1) * widths.prod := by rw [Nat.succ_mul]; omega
      _ ≤ width * widths.prod := Nat.mul_le_mul_right _ hlt

/-- Combinations of equal rank are the same. -/
theorem rank_injective : ∀ {widths p q : List ℕ}, InRange widths p → InRange widths q →
    rank widths p = rank widths q → p = q := by
  intro widths p q hp
  induction hp generalizing q with
  | nil => intro hq _; cases hq; rfl
  | @cons a width p widths hlt hp ih =>
    intro hq heq
    cases hq with
    | @cons b _ q _ hlt' hq =>
      have hrp := rank_lt_prod hp
      have hrq := rank_lt_prod hq
      rw [rank, rank] at heq
      have hpos : 0 < widths.prod := by omega
      have hdiv := congrArg (· / widths.prod) heq
      simp only [Nat.mul_comm _ widths.prod, Nat.mul_add_div hpos, Nat.div_eq_of_lt hrp,
        Nat.div_eq_of_lt hrq, Nat.add_zero] at hdiv
      subst hdiv
      rw [ih hq (by omega)]

/-- One step: the next combination in rank, unless this was the last. -/
theorem advance_spec : ∀ {widths path : List ℕ}, InRange widths path →
    InRange widths (advance widths path).1 ∧
      ((advance widths path).2 = false →
        rank widths (advance widths path).1 = rank widths path + 1) ∧
      ((advance widths path).2 = true →
        rank widths path + 1 = widths.prod ∧ rank widths (advance widths path).1 = 0) := by
  intro widths path h
  induction h with
  | nil => simp [advance, rank]
  | @cons digit width path widths hlt hpath ih =>
    obtain ⟨hin, hstep, hcarry⟩ := ih
    have hunfold : advance (width :: widths) (digit :: path) =
        if (advance widths path).2 then
          if digit + 1 < width then ((digit + 1) :: (advance widths path).1, false)
          else (0 :: (advance widths path).1, true)
        else (digit :: (advance widths path).1, false) := rfl
    rw [hunfold]
    cases hc : (advance widths path).2 with
    | false =>
      refine ⟨List.Forall₂.cons hlt hin, fun _ => ?_, fun h => by cases h⟩
      simp only [Bool.false_eq_true, if_false, rank, hstep hc]
      omega
    | true =>
      obtain ⟨hlast, hzero⟩ := hcarry hc
      simp only [if_true]
      split_ifs with hmore
      · refine ⟨List.Forall₂.cons hmore hin, fun _ => ?_, fun h => by cases h⟩
        simp only [rank, hzero, ← hlast, Nat.succ_mul]
        omega
      · obtain rfl : width = digit + 1 := by omega
        refine ⟨List.Forall₂.cons (by omega) hin, (fun h => by cases h), fun _ => ?_⟩
        simp only [rank, hzero, List.prod_cons, ← hlast, Nat.succ_mul]
        omega

/-! ### The walk -/

/-- The walk ends within as many rounds as there are combinations left, and its
result is the cheapest of the start and all paths from `path` on. -/
theorem search_spec (t : Trellis) : ∀ (fuel : ℕ) {path : List ℕ} (best : Path),
    t.IsNodePath path → t.widths.prod ≤ fuel + rank t.widths path →
    ∃ found, search t fuel path best = some found ∧
      (∀ nodes, t.IsNodePath nodes → rank t.widths path ≤ rank t.widths nodes →
        found.cost ≤ t.pathCost nodes) ∧
      found.cost ≤ best.cost ∧
      (found = best ∨ ∃ nodes, t.IsNodePath nodes ∧ found = ⟨nodes, t.pathCost nodes⟩) := by
  intro fuel
  induction fuel with
  | zero =>
    intro path best hpath hfuel
    have := rank_lt_prod hpath
    omega
  | succ fuel ih =>
    intro path best hpath hfuel
    obtain ⟨hin, hstep, hcarry⟩ := advance_spec hpath
    rw [search]
    -- the path at hand is taken into account before the counter moves
    set kept : Path := if t.pathCost path < best.cost then ⟨path, t.pathCost path⟩ else best
      with hkept
    have hle : kept.cost ≤ t.pathCost path ∧ kept.cost ≤ best.cost := by
      rw [hkept]
      split_ifs with hlt
      · exact ⟨le_rfl, hlt.le⟩
      · exact ⟨by omega, le_rfl⟩
    have hfrom : kept = best ∨ ∃ nodes, t.IsNodePath nodes ∧ kept = ⟨nodes, t.pathCost nodes⟩ := by
      rw [hkept]
      split_ifs
      · exact Or.inr ⟨path, hpath, rfl⟩
      · exact Or.inl rfl
    cases hc : (advance t.widths path).2 with
    | true =>
      simp only [if_true]
      refine ⟨kept, rfl, fun nodes hnodes hrank => ?_, hle.2, hfrom⟩
      have := rank_lt_prod hnodes
      have hlast := (hcarry hc).1
      rw [rank_injective hnodes hpath (by omega)]
      exact hle.1
    | false =>
      simp only [Bool.false_eq_true, if_false]
      have hnext := hstep hc
      obtain ⟨found, hfound, hmin, hbest, horigin⟩ := ih kept hin (by omega)
      refine ⟨found, hfound, fun nodes hnodes hrank => ?_, hbest.trans hle.2, ?_⟩
      · rcases hrank.lt_or_eq with hlt | heq
        · exact hmin nodes hnodes (by omega)
        · rw [rank_injective hnodes hpath heq.symm]
          exact hbest.trans hle.1
      · rcases horigin with rfl | h
        · exact hfrom
        · exact Or.inr h

theorem rank_replicate_zero : ∀ widths : List ℕ,
    rank widths (List.replicate widths.length 0) = 0 := by
  intro widths
  induction widths with
  | nil => rfl
  | cons width widths ih => simp [List.replicate_succ, rank, ih]

end BruteForceSolver

end Routers
