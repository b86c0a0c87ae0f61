import Mathlib.Data.List.MinMax
import Mathlib.Data.List.Perm.Basic

/-!
# The element with the greatest key

An iterator that is asked for its maximum by a key returns the last of the elements whose
key is greatest.  Where keys tell the elements apart there is only one of these, and what
is returned depends on the elements alone: not on their order, and not on the elements
that lose.

## Main definitions

* `MaxByKey.maxByKey f l` — the last element of `l` whose key under `f` is greatest.

## Main results

* `maxByKey_eq_some_iff` — **with keys that tell elements apart, the one no other exceeds.**
* `maxByKey_perm` — the order of the elements is of no account.
* `maxByKey_insert`, `maxByKey_remove` — a newcomer wins or changes nothing, and who loses can go.
* `rel_of_maxByKey`, `maxByKey_concat` — of several with the greatest key, the last one.
-/

namespace MaxByKey

variable {α κ : Type*} [LinearOrder κ] {f : α → κ} {l l' : List α} {a b : α}

/-- The last element whose key is greatest; `none` of an empty list. -/
def maxByKey (f : α → κ) (l : List α) : Option α := l.reverse.argmax f

@[simp] theorem maxByKey_eq_none_iff : maxByKey f l = none ↔ l = [] := by
  simp [maxByKey]

theorem mem_of_maxByKey (h : maxByKey f l = some a) : a ∈ l :=
  List.mem_reverse.mp (List.argmax_mem h)

theorem le_of_maxByKey (h : maxByKey f l = some a) (hb : b ∈ l) : f b ≤ f a :=
  List.le_of_mem_argmax (List.mem_reverse.mpr hb) h

theorem exists_maxByKey (h : l ≠ []) : ∃ a, maxByKey f l = some a :=
  Option.ne_none_iff_exists'.mp fun hnone => h (maxByKey_eq_none_iff.mp hnone)

theorem maxByKey_cons : maxByKey f (a :: l) = match maxByKey f l with
    | none => some a
    | some b => if f b < f a then some a else some b := by
  rw [maxByKey, List.reverse_cons, List.argmax_concat]
  unfold maxByKey
  cases l.reverse.argmax f <;> rfl

/-- An element put last wins unless another one exceeds it. -/
theorem maxByKey_concat (hle : ∀ b ∈ l, f b ≤ f a) : maxByKey f (l ++ [a]) = some a := by
  induction l with
  | nil => simp [maxByKey]
  | cons c l ih =>
    rw [List.cons_append, maxByKey_cons, ih fun b hb => hle b (List.mem_cons_of_mem c hb)]
    exact if_neg (hle c List.mem_cons_self).not_gt

/-- In a list in some order, the winner comes after the others with its key. -/
theorem rel_of_maxByKey {r : α → α → Prop} (hrefl : ∀ a, r a a) (hl : l.Pairwise r)
    (h : maxByKey f l = some a) (hb : b ∈ l) (hkey : f b = f a) : r b a := by
  induction l generalizing a with
  | nil => cases hb
  | cons c l ih =>
    obtain ⟨hc, hl⟩ := List.pairwise_cons.mp hl
    rw [maxByKey_cons] at h
    cases hmax : maxByKey f l with
    | none =>
      rw [maxByKey_eq_none_iff] at hmax
      subst hmax
      obtain rfl := List.mem_singleton.mp hb
      rw [show maxByKey f ([] : List α) = none by simp] at h
      cases h
      exact hrefl b
    | some d =>
      rw [hmax] at h
      simp only at h
      split_ifs at h with hlt
      · cases h
        rcases List.mem_cons.mp hb with rfl | hb
        · exact hrefl b
        · exact absurd hkey ((le_of_maxByKey hmax hb).trans_lt hlt).ne
      · cases h
        rcases List.mem_cons.mp hb with rfl | hb
        · exact hc _ (mem_of_maxByKey hmax)
        · exact ih hl hmax hb hkey

/-- Keys read through a map pick the image of what they pick before it. -/
theorem maxByKey_map {β : Type*} (f : β → κ) (g : α → β) (l : List α) :
    maxByKey f (l.map g) = (maxByKey (fun a => f (g a)) l).map g := by
  induction l with
  | nil => rfl
  | cons a l ih =>
    rw [List.map_cons, maxByKey_cons, maxByKey_cons, ih]
    cases maxByKey (fun a => f (g a)) l with
    | none => rfl
    | some b =>
      simp only [Option.map_some]
      split_ifs <;> rfl

/-- **With keys that tell elements apart**, the element with the greatest key is the one
no other exceeds. -/
theorem maxByKey_eq_some_iff (hf : Set.InjOn f {x | x ∈ l}) :
    maxByKey f l = some a ↔ a ∈ l ∧ ∀ b ∈ l, f b ≤ f a := by
  constructor
  · exact fun h => ⟨mem_of_maxByKey h, fun b hb => le_of_maxByKey h hb⟩
  · rintro ⟨hmem, hle⟩
    obtain ⟨c, hc⟩ := exists_maxByKey (f := f) (List.ne_nil_of_mem hmem)
    -- each of the two exceeds the other
    have heq : f c = f a := le_antisymm (hle c (mem_of_maxByKey hc)) (le_of_maxByKey hc hmem)
    rw [hc, hf (mem_of_maxByKey hc) hmem heq]

theorem maxByKey_perm (hf : Set.InjOn f {x | x ∈ l}) (h : l.Perm l') :
    maxByKey f l' = maxByKey f l := by
  have hf' : Set.InjOn f {x | x ∈ l'} := fun x hx y hy =>
    hf (h.mem_iff.mpr hx) (h.mem_iff.mpr hy)
  ext a
  rw [maxByKey_eq_some_iff hf', maxByKey_eq_some_iff hf]
  simp only [h.mem_iff]

/-- A newcomer wins, or the winner stays. -/
theorem maxByKey_insert (hf : Set.InjOn f {x | x ∈ l}) (h : (a :: l).Perm l') :
    maxByKey f l' = some a ∨ maxByKey f l' = maxByKey f l := by
  obtain ⟨b, hb⟩ := exists_maxByKey (f := f) (l := l')
    (List.ne_nil_of_mem (h.mem_iff.mp List.mem_cons_self))
  rcases List.mem_cons.mp (h.mem_iff.mpr (mem_of_maxByKey hb)) with rfl | hmem
  · exact .inl hb
  · refine .inr (hb.trans ((maxByKey_eq_some_iff hf).mpr ⟨hmem, fun c hc => ?_⟩).symm)
    exact le_of_maxByKey hb (h.mem_iff.mp (List.mem_cons_of_mem a hc))

/-- An element that does not win can go. -/
theorem maxByKey_remove (hf : Set.InjOn f {x | x ∈ l}) (h : l.Perm (a :: l'))
    (hlose : maxByKey f l ≠ some a) : maxByKey f l' = maxByKey f l := by
  have hf' : Set.InjOn f {x | x ∈ l'} := fun x hx y hy =>
    hf (h.mem_iff.mpr (List.mem_cons_of_mem a hx)) (h.mem_iff.mpr (List.mem_cons_of_mem a hy))
  rcases maxByKey_insert hf' h.symm with hwin | heq
  · exact absurd hwin hlose
  · exact heq.symm

end MaxByKey
