import Mathlib.Data.List.Basic

/-!
# Delta coding

A sequence is stored by what each element adds to the one before it, and read back by a
loop that looks at the element it produced last.  The law of such a code is local: it
relates one difference to one step of the loop.

## Main definitions

* `differences` — a sequence stored by differences.
* `accumulate` — the loop that pushes each element next to the one pushed last.

## Main results

* `accumulate_differences` — **what is stored by differences is read back.**
-/

namespace DeltaCoding

variable {α α' β γ : Type*}

/-- Each element as it differs from the one before it, the first from `prior`. -/
def differences (diff : Option γ → γ → α) : Option γ → List γ → List α
  | _, [] => []
  | prior, v :: l => diff prior v :: differences diff (some v) l

/-- Push, for each element, what a step makes of it and of the last one pushed. -/
def accumulate (step : Option β → α → β) (l : List α) : List β :=
  l.foldl (fun curr a => curr ++ [step curr.getLast? a]) []

theorem zip_differences (diff : Option γ → γ → α) (diff' : Option γ → γ → α') (prior : Option γ)
    (l : List γ) : (differences diff prior l).zip (differences diff' prior l)
      = differences (fun prior v => (diff prior v, diff' prior v)) prior l := by
  induction l generalizing prior with
  | nil => rfl
  | cons v l ih =>
    simp only [differences, List.zip_cons_cons, ih]

/-- The loop, from what it has pushed so far. -/
theorem foldl_differences {step : Option β → α → β} {diff : Option γ → γ → α} {decode : γ → β}
    (h : ∀ prior v, step (prior.map decode) (diff prior v) = decode v) (l : List γ)
    (prior : Option γ) (curr : List β) (hcurr : curr.getLast? = prior.map decode) :
    (differences diff prior l).foldl (fun curr a => curr ++ [step curr.getLast? a]) curr
      = curr ++ l.map decode := by
  induction l generalizing prior curr with
  | nil => simp [differences]
  | cons v l ih =>
    rw [differences, List.foldl_cons, hcurr, h, ih (some v) _ (by simp)]
    simp

/-- **What is stored by differences is read back**, if a step undoes a difference. -/
theorem accumulate_differences {step : Option β → α → β} {diff : Option γ → γ → α} {decode : γ → β}
    (h : ∀ prior v, step (prior.map decode) (diff prior v) = decode v) (l : List γ) :
    accumulate step (differences diff none l) = l.map decode := by
  rw [accumulate, foldl_differences h l none [] rfl, List.nil_append]

end DeltaCoding
