import Routers.Realtime.Service
import Routers.Transition.SharedCache

/-!
# Solves side by side

The matcher service solves several contexts at once, each on a thread of its own, and all of them
over the one cache of predicates that the service is started with.  Solves begin at any time, take
their steps in any order, and entries of the cache are evicted meanwhile.

## Main definitions

* `Matching.solveProg` — a solve, as a program over the caches.
* `Matching.Runs` — the solves of a service, side by side.

## Main results

* `Matching.runs_solve` — **what solves side by side reply is what each of them replies alone**;
  none of them panics, waits for another, or goes on forever.

## References

`src/libs/routers_realtime/bin/matcher.rs` and
`src/libs/routers_transition/src/primitives/cache.rs`.
-/

namespace Routers

open SharedMemory

variable {E P M R : Type} [DecidableEq E] [Inhabited E] [Geometry P] [DecidableEq R] [Inhabited P]
  [DecidableEq P]

namespace Matching

variable (s : Matching E P M R)

/-- The reply to a trip, over the caches of the service. -/
def replyProg (trip : Trip E P) (downgraded : Bool) : CacheProg E R (MatchReply E P) :=
  if trip.origins.isEmpty then .pure .noMatch
  else
    (s.matcher.solveProg trip).bind fun
      | (.error _, _) => .pure .noMatch
      | (.ok _, trip) =>
        let origins := trip.origins
        (s.matcher.snapshotProg trip).map fun
          | (.error _, _) => .noMatch
          | (.ok solution, trip) =>
            let diff :=
              { MatchedDiff.new solution origins s.network 0 with downgraded := downgraded }
            .solved diff (Matcher.cutBehind trip)

/-- A solve over the caches of the service. -/
def solveProg (continuation : Continuation E P) : CacheProg E R (MatchReply E P) :=
  match continuation with
  | .resume trip fresh =>
    if !s.matcher.supports trip then
      s.replyProg (s.matcher.pushAll Trip.new (trip.origins ++ fresh)) true
    else s.replyProg (s.matcher.pushAll trip fresh) false
  | .restart fresh => s.replyProg (s.matcher.pushAll Trip.new fresh) false

/-- A reply over the caches yields the reply without them. -/
theorem yields_replyProg (trip : Trip E P) (downgraded : Bool) :
    (s.replyProg trip downgraded).Yields s.matcher.contract (s.reply trip downgraded) := by
  unfold replyProg reply
  by_cases hempty : trip.origins.isEmpty = true
  · rw [if_pos hempty, if_pos hempty]
    rfl
  · rw [if_neg hempty, if_neg hempty]
    refine (s.matcher.yields_solveProg trip).bind ?_
    obtain ⟨result, trip⟩ := s.matcher.solve trip
    cases result with
    | error e => rfl
    | ok path =>
      dsimp only
      refine (s.matcher.yields_snapshotProg trip).bind ?_
      obtain ⟨result, trip⟩ := s.matcher.snapshot trip
      cases result with
      | error e => rfl
      | ok solution => rfl

/-- **A solve over the caches** yields the reply of a solve without them. -/
theorem yields_solveProg (continuation : Continuation E P) :
    (s.solveProg continuation).Yields s.matcher.contract (s.solve continuation) := by
  cases continuation with
  | resume trip fresh =>
    cases hsupports : s.matcher.supports trip with
    | true =>
      simp only [solveProg, solve, hsupports, Bool.not_true, Bool.false_eq_true, if_false]
      exact s.yields_replyProg _ _
    | false =>
      simp only [solveProg, solve, hsupports, Bool.not_false, if_true]
      exact s.yields_replyProg _ _
  | restart fresh => exact s.yields_replyProg _ _

/-- The solves a service has begun, from the start of its process. -/
abbrev Runs (σ : Pool (CacheOp E R) CacheOp.Answer (SharedCaches E R) (Continuation E P)
    (MatchReply E P)) : Prop :=
  Pool.Runs SharedCaches.perform SharedCaches.Evicted s.solveProg ⟨.empty, []⟩ σ

variable {s}

/-- **What solves side by side reply is what each of them replies alone.**  As long as it has not
replied a solve can go on whatever the others do, and it does not go on forever. -/
theorem runs_solve {σ : Pool (CacheOp E R) CacheOp.Answer (SharedCaches E R) (Continuation E P)
    (MatchReply E P)} (h : s.Runs σ) :
    ∀ entry ∈ σ.tasks,
      (∀ reply, entry.2 = .pure reply → reply = s.solve entry.1) ∧
        ((∃ reply, entry.2 = .pure reply) ∨
          ∃ p caches, Prog.Step SharedCaches.perform entry.2 σ.memory p caches) ∧
        Acc (fun q p => ∃ caches caches', Prog.Step SharedCaches.perform p caches q caches')
          entry.2 := by
  obtain ⟨hcaches, htasks⟩ := Pool.runs_spec (c := s.matcher.contract)
    (fun _ _ => SharedCaches.SoundFor.evicted) s.yields_solveProg
    (SharedCaches.soundFor_empty ..) h
  intro entry hentry
  have hyields := htasks entry hentry
  refine ⟨fun reply hreply => ?_, ?_, Prog.acc_step _ _⟩
  · rw [hreply] at hyields
    exact hyields
  · obtain hdone | hstep := hyields.progress hcaches
    · exact Or.inl ⟨_, hdone⟩
    · exact Or.inr hstep

/-- Two traces along the road, the second solved over what the first has left in the caches. -/
theorem runs_solve_road :
    let first := Continuation.restart [⟨⟨30⟩, 0⟩, ⟨⟨250⟩, 1⟩]
    let second := Continuation.restart [⟨⟨40⟩, 0⟩, ⟨⟨270⟩, 1⟩]
    ∃ caches reply reply',
      roadService.Runs ⟨caches, [(first, .pure reply), (second, .pure reply')]⟩ ∧
        reply = roadService.solve first ∧ reply' = roadService.solve second := by
  intro first second
  obtain ⟨caches, hcaches, hfirst⟩ := (roadService.yields_solveProg first).exists_run
    (SharedCaches.soundFor_empty ..)
  obtain ⟨caches', -, hsecond⟩ := (roadService.yields_solveProg second).exists_run hcaches
  have hruns : roadService.Runs ⟨caches', [(first, .pure (roadService.solve first)),
      (second, .pure (roadService.solve second))]⟩ :=
    (Pool.runs_start hfirst).trans (Pool.runs_start hsecond)
  have hreplies := runs_solve hruns
  exact ⟨caches', _, _, hruns, (hreplies _ List.mem_cons_self).1 _ rfl,
    (hreplies _ (List.mem_cons_of_mem _ List.mem_cons_self)).1 _ rfl⟩

end Matching

end Routers
