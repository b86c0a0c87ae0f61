import Mathlib.Data.List.Basic
import Mathlib.Logic.Relation

/-!
# Programs over a shared memory

A program asks operations of a memory that it shares with other programs, and may run two programs
side by side.  Programs are started at any time and take their steps in any order, and the memory
may change besides.  If the memory answers what is asked of it as agreed, and every program comes to
the same whatever it is answered as agreed, then none of this shows in what programs come to.

## Main definitions

* `Prog` — programs; `Prog.bind`, `Prog.all` — one after the other, and side by side.
* `Prog.Step` — a step of a program, with what it does to the memory.
* `Contract` — what may be asked, what is answered then, and what the memory keeps.
* `Prog.Yields` — what a program comes to, whatever it is answered.
* `Pool`, `Pool.Step` — programs that share a memory.

## Main results

* `Prog.Yields.step`, `Prog.Yields.progress`, `Prog.acc_step` — **a program comes to what it yields,
  never stops before, and does not go on forever.**
* `Pool.runs_spec` — so do programs that share a memory.
-/

namespace SharedMemory

/-- A program that asks operations: it is done, or it asks one and goes on with the answer, or it
runs two programs side by side and goes on with what they come to. -/
inductive Prog (Op : Type) (Answer : Op → Type) : Type → Type 1
  | pure {A : Type} (a : A) : Prog Op Answer A
  | ask {A : Type} (op : Op) (k : Answer op → Prog Op Answer A) : Prog Op Answer A
  | both {A B C : Type} (p : Prog Op Answer A) (q : Prog Op Answer B)
      (k : A → B → Prog Op Answer C) : Prog Op Answer C

variable {Op : Type} {Answer : Op → Type} {A B C S T : Type}

namespace Prog

/-- One program after the other. -/
def bind : Prog Op Answer A → (A → Prog Op Answer B) → Prog Op Answer B
  | pure a, f => f a
  | ask op k, f => ask op fun answer => (k answer).bind f
  | both p q k, f => both p q fun a b => (k a b).bind f

/-- The program with its result mapped. -/
def map (f : A → B) (p : Prog Op Answer A) : Prog Op Answer B := p.bind fun a => pure (f a)

/-- Programs side by side. -/
def all : List (Prog Op Answer A) → Prog Op Answer (List A)
  | [] => pure []
  | p :: ps => both p (all ps) fun a as => pure (a :: as)

/-- Programs one after the other, what they come to handed on. -/
def foldl (f : B → A → Prog Op Answer B) : B → List A → Prog Op Answer B
  | b, [] => pure b
  | b, a :: l => (f b a).bind fun b => foldl f b l

/-- Programs one after the other, with what some of them come to. -/
def filterMap (f : A → Prog Op Answer (Option B)) : List A → Prog Op Answer (List B)
  | [] => pure []
  | a :: l => (f a).bind fun
    | none => filterMap f l
    | some b => (filterMap f l).map (b :: ·)

/-! ### Steps -/

/-- A step of a program: an operation is performed, by either of two programs side by side, or both
are done.  An operation that is not performed leaves its program where it is. -/
inductive Step (perform : (op : Op) → S → Option (Answer op × S)) :
    {A : Type} → Prog Op Answer A → S → Prog Op Answer A → S → Prop
  | ask {A : Type} {op : Op} {k : Answer op → Prog Op Answer A} {s s' : S} {answer : Answer op} :
      perform op s = some (answer, s') → Step perform (ask op k) s (k answer) s'
  | left {A B C : Type} {p p' : Prog Op Answer A} {q : Prog Op Answer B}
      {k : A → B → Prog Op Answer C} {s s' : S} :
      Step perform p s p' s' → Step perform (both p q k) s (both p' q k) s'
  | right {A B C : Type} {p : Prog Op Answer A} {q q' : Prog Op Answer B}
      {k : A → B → Prog Op Answer C} {s s' : S} :
      Step perform q s q' s' → Step perform (both p q k) s (both p q' k) s'
  | join {A B C : Type} {a : A} {b : B} {k : A → B → Prog Op Answer C} {s : S} :
      Step perform (both (pure a) (pure b) k) s (k a b) s

variable {perform : (op : Op) → S → Option (Answer op × S)}

theorem not_step_pure {a : A} {s s' : S} {p' : Prog Op Answer A} :
    ¬ Step perform (pure a) s p' s' := by
  intro h
  cases h

/-- **A program does not go on forever**, whatever happens to the memory between its steps. -/
theorem acc_step (perform : (op : Op) → S → Option (Answer op × S)) (p : Prog Op Answer A) :
    Acc (fun p' p => ∃ s s', Step perform p s p' s') p := by
  induction p with
  | pure a => exact Acc.intro _ fun p' ⟨s, s', h⟩ => absurd h not_step_pure
  | ask op k ih =>
    refine Acc.intro _ fun p' ⟨s, s', h⟩ => ?_
    cases h with
    | ask _ => exact ih _
  | both p q k ihp ihq ihk =>
    -- of two programs side by side each step leaves one as it is
    induction ihp generalizing q with
    | intro p _ ihleft =>
      induction ihq with
      | intro q hq ihright =>
        refine Acc.intro _ fun r ⟨s, s', h⟩ => ?_
        cases h with
        | left h => exact ihleft _ ⟨s, s', h⟩ q (Acc.intro q hq)
        | right h => exact ihright _ ⟨s, s', h⟩
        | join => exact ihk _ _

end Prog

/-! ### What programs come to -/

/-- An agreement between programs and the memory: what may be asked, what is answered then, and
what is kept of the memory. -/
structure Contract (perform : (op : Op) → S → Option (Answer op × S)) where
  Asks : Op → Prop
  Says : (op : Op) → Answer op → Prop
  Keeps : S → Prop
  performs : ∀ op s, Asks op → Keeps s →
    ∃ answer s', perform op s = some (answer, s') ∧ Says op answer ∧ Keeps s'

namespace Prog

variable {perform : (op : Op) → S → Option (Answer op × S)} (c : Contract perform)

/-- The program asks what it may, and comes to the value, whatever it is answered as agreed. -/
def Yields : {A : Type} → Prog Op Answer A → A → Prop
  | _, pure b, a => b = a
  | _, ask op k, a => c.Asks op ∧ ∀ answer, c.Says op answer → Yields (k answer) a
  | _, both p q k, d => ∃ a b, Yields p a ∧ Yields q b ∧ Yields (k a b) d

variable {c} {p p' : Prog Op Answer A} {a : A} {s s' : S}

@[simp] theorem yields_pure {b : A} : (pure b : Prog Op Answer A).Yields c a ↔ b = a := Iff.rfl

theorem Yields.bind {f : A → Prog Op Answer B} {b : B} (hp : p.Yields c a)
    (hf : (f a).Yields c b) : (p.bind f).Yields c b := by
  induction p with
  | pure a' =>
    obtain rfl : a' = a := hp
    exact hf
  | ask op k ih => exact ⟨hp.1, fun answer hanswer => ih answer (hp.2 answer hanswer) hf⟩
  | both p q k _ _ ih =>
    obtain ⟨x, y, hx, hy, hk⟩ := hp
    exact ⟨x, y, hx, hy, ih x y hk hf⟩

theorem Yields.map {f : A → B} (hp : p.Yields c a) : (p.map f).Yields c (f a) :=
  hp.bind (yields_pure.mpr rfl)

theorem yields_all {f : B → Prog Op Answer A} {g : B → A} {l : List B}
    (h : ∀ b ∈ l, (f b).Yields c (g b)) : (all (l.map f)).Yields c (l.map g) := by
  induction l with
  | nil => exact yields_pure.mpr rfl
  | cons b l ih =>
    obtain ⟨hb, hl⟩ := List.forall_mem_cons.mp h
    exact ⟨g b, l.map g, hb, ih hl, yields_pure.mpr rfl⟩

theorem yields_foldl {f : B → A → Prog Op Answer B} {g : B → A → B} {l : List A}
    (h : ∀ b, ∀ a ∈ l, (f b a).Yields c (g b a)) (b : B) :
    (foldl f b l).Yields c (l.foldl g b) := by
  induction l generalizing b with
  | nil => exact yields_pure.mpr rfl
  | cons a l ih =>
    exact (h b a List.mem_cons_self).bind
      (ih (fun b a ha => h b a (List.mem_cons_of_mem _ ha)) (g b a))

theorem yields_filterMap {f : A → Prog Op Answer (Option B)} {g : A → Option B} {l : List A}
    (h : ∀ a ∈ l, (f a).Yields c (g a)) : (filterMap f l).Yields c (l.filterMap g) := by
  induction l with
  | nil => exact yields_pure.mpr rfl
  | cons a l ih =>
    obtain ⟨ha, hl⟩ := List.forall_mem_cons.mp h
    refine ha.bind ?_
    cases hg : g a with
    | none =>
      rw [List.filterMap_cons_none hg]
      exact ih hl
    | some b =>
      rw [List.filterMap_cons_some hg]
      exact (ih hl).map

/-- **A step of a program** keeps what it yields, and what the memory keeps. -/
theorem Yields.step (hp : p.Yields c a) (hs : c.Keeps s) (h : Step perform p s p' s') :
    p'.Yields c a ∧ c.Keeps s' := by
  induction h with
  | ask hop =>
    obtain ⟨answer, s', hperform, hsays, hkeeps⟩ := c.performs _ _ hp.1 hs
    cases hop.symm.trans hperform
    exact ⟨hp.2 _ hsays, hkeeps⟩
  | left _ ih =>
    obtain ⟨x, y, hx, hy, hk⟩ := hp
    obtain ⟨hx, hs⟩ := ih hx hs
    exact ⟨⟨x, y, hx, hy, hk⟩, hs⟩
  | right _ ih =>
    obtain ⟨x, y, hx, hy, hk⟩ := hp
    obtain ⟨hy, hs⟩ := ih hy hs
    exact ⟨⟨x, y, hx, hy, hk⟩, hs⟩
  | join =>
    obtain ⟨x, y, rfl, rfl, hk⟩ := hp
    exact ⟨hk, hs⟩

/-- **A program never stops** before it has come to what it yields. -/
theorem Yields.progress (hp : p.Yields c a) (hs : c.Keeps s) :
    p = pure a ∨ ∃ p' s', Step perform p s p' s' := by
  induction p with
  | pure a' => exact Or.inl (congrArg pure hp)
  | ask op k _ =>
    obtain ⟨answer, s', hperform, -, -⟩ := c.performs op s hp.1 hs
    exact Or.inr ⟨_, s', .ask hperform⟩
  | both p q k ihp ihq _ =>
    obtain ⟨x, y, hx, hy, -⟩ := hp
    obtain rfl | ⟨p', s', h⟩ := ihp hx
    · obtain rfl | ⟨q', s', h⟩ := ihq hy
      · exact Or.inr ⟨_, s, .join⟩
      · exact Or.inr ⟨_, s', .right h⟩
    · exact Or.inr ⟨_, s', .left h⟩

/-- Left to itself a program comes to what it yields. -/
theorem Yields.exists_run (hp : p.Yields c a) (hs : c.Keeps s) : ∃ s', c.Keeps s' ∧
    Relation.ReflTransGen (fun x y : Prog Op Answer A × S => Step perform x.1 x.2 y.1 y.2)
      (p, s) (pure a, s') := by
  induction acc_step perform p generalizing s with
  | intro p _ ih =>
    obtain rfl | ⟨p', s', h⟩ := hp.progress hs
    · exact ⟨s, hs, .refl⟩
    · obtain ⟨hp', hs'⟩ := hp.step hs h
      obtain ⟨s'', hs'', hrun⟩ := ih p' ⟨s, s', h⟩ hp' hs'
      exact ⟨s'', hs'', .head h hrun⟩

end Prog

/-! ### Programs that share a memory -/

/-- The memory, and the tasks that have been started with what is left of their programs. -/
structure Pool (Op : Type) (Answer : Op → Type) (S T A : Type) where
  memory : S
  tasks : List (T × Prog Op Answer A)

namespace Pool

/-- A task is started, the program of one takes a step, or the memory drifts. -/
inductive Step (perform : (op : Op) → S → Option (Answer op × S)) (drift : S → S → Prop)
    (start : T → Prog Op Answer A) (σ : Pool Op Answer S T A) : Pool Op Answer S T A → Prop
  | start (task : T) :
      Step perform drift start σ { σ with tasks := σ.tasks ++ [(task, start task)] }
  | step (i : ℕ) (task : T) (p p' : Prog Op Answer A) (s : S) : σ.tasks[i]? = some (task, p) →
      Prog.Step perform p σ.memory p' s →
      Step perform drift start σ ⟨s, σ.tasks.set i (task, p')⟩
  | drift (s : S) : drift σ.memory s → Step perform drift start σ { σ with memory := s }

/-- Any number of steps of the pool. -/
abbrev Runs (perform : (op : Op) → S → Option (Answer op × S)) (drift : S → S → Prop)
    (start : T → Prog Op Answer A) : Pool Op Answer S T A → Pool Op Answer S T A → Prop :=
  Relation.ReflTransGen (Step perform drift start)

variable {perform : (op : Op) → S → Option (Answer op × S)} {c : Contract perform}
  {drift : S → S → Prop} {start : T → Prog Op Answer A} {f : T → A} {s : S}
  {σ : Pool Op Answer S T A}

/-- **Programs that share a memory** are on their way to what each yields by itself. -/
theorem runs_spec (hdrift : ∀ s s', drift s s' → c.Keeps s → c.Keeps s')
    (hstart : ∀ task, (start task).Yields c (f task)) (hs : c.Keeps s)
    (h : Runs perform drift start ⟨s, []⟩ σ) :
    c.Keeps σ.memory ∧ ∀ entry ∈ σ.tasks, entry.2.Yields c (f entry.1) := by
  induction h with
  | refl => exact ⟨hs, by simp⟩
  | tail _ hstep ih =>
    obtain ⟨hmemory, htasks⟩ := ih
    cases hstep with
    | start task =>
      refine ⟨hmemory, fun entry hentry => ?_⟩
      obtain hentry | hentry := List.mem_append.mp hentry
      · exact htasks entry hentry
      · rw [List.mem_singleton.mp hentry]
        exact hstart task
    | step i task p p' s hget hstep =>
      obtain ⟨hyields, hmemory⟩ := (htasks _ (List.mem_of_getElem? hget)).step hmemory hstep
      refine ⟨hmemory, fun entry hentry => ?_⟩
      obtain hentry | rfl := List.mem_or_eq_of_mem_set hentry
      · exact htasks entry hentry
      · exact hyields
    | drift s hs => exact ⟨hdrift _ s hs hmemory, htasks⟩

/-- A task may be started after others, and its program run while theirs rest. -/
theorem runs_start {task : T} {p : Prog Op Answer A} {s s' : S}
    {tasks : List (T × Prog Op Answer A)}
    (h : Relation.ReflTransGen (fun x y : Prog Op Answer A × S => Prog.Step perform x.1 x.2 y.1 y.2)
      (start task, s) (p, s')) :
    Runs perform drift start ⟨s, tasks⟩ ⟨s', tasks ++ [(task, p)]⟩ := by
  have hrun : ∀ x : Prog Op Answer A × S,
      Relation.ReflTransGen (fun x y => Prog.Step perform x.1 x.2 y.1 y.2) (start task, s) x →
      Runs perform drift start ⟨s, tasks⟩ ⟨x.2, tasks ++ [(task, x.1)]⟩ := by
    intro x hx
    induction hx with
    | refl => exact .single (.start task)
    | @tail y z _ hstep ih =>
      have hnext : Step perform drift start ⟨y.2, tasks ++ [(task, y.1)]⟩
          ⟨z.2, (tasks ++ [(task, y.1)]).set tasks.length (task, z.1)⟩ :=
        .step tasks.length task _ _ _ List.getElem?_concat_length hstep
      rw [List.set_append_right _ _ (Nat.le_refl _), Nat.sub_self] at hnext
      exact ih.tail hnext
  exact hrun (p, s') h

end Pool

end SharedMemory
