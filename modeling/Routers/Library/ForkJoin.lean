import Mathlib.Data.List.Induction

/-!
# Fork and join

A sequence is broken up into pieces, as the threads at hand have it.  The pieces are worked off each
on its own, from an identity, and the results are joined two at a time.  Where it is broken up does
not show if joining with the identity changes nothing and a step may as well be taken after a join.

## Main definitions

* `Split` — a sequence broken up.
* `Split.reduce` — the pieces worked off and joined.
* `JoinsFold` — the two laws.

## Main results

* `Split.reduce_fold` — **pieces joined are the sequence worked off at once.**
-/

namespace ForkJoin

variable {α β : Type*}

/-- A sequence broken up: a piece, or two parts one after the other. -/
inductive Split (α : Type*)
  | piece (items : List α)
  | join (left right : Split α)

namespace Split

/-- The sequence. -/
def items : Split α → List α
  | piece items => items
  | join left right => left.items ++ right.items

/-- The same split of the images. -/
def map (f : α → β) : Split α → Split β
  | piece items => piece (items.map f)
  | join left right => join (left.map f) (right.map f)

/-- Each piece is worked off from the identity, and parts are joined. -/
def reduce (ident : β) (combine : β → β → β) : Split β → β
  | piece items => items.foldl combine ident
  | join left right => combine (left.reduce ident combine) (right.reduce ident combine)

@[simp] theorem items_map (f : α → β) (s : Split α) : (s.map f).items = s.items.map f := by
  induction s with
  | piece items => rfl
  | join left right ihl ihr => rw [map, items, items, ihl, ihr, List.map_append]

/-- Parts are joined whose items have been replaced. -/
theorem map_map {γ : Type*} (g : β → γ) (f : α → β) (s : Split α) :
    (s.map f).map g = s.map (g ∘ f) := by
  induction s with
  | piece items => simp [map]
  | join left right ihl ihr => simp [map, ihl, ihr]

end Split

/-- Joining with the identity changes nothing, and a step may as well be taken after a join. -/
structure JoinsFold (ident : β) (fold : β → α → β) (combine : β → β → β) : Prop where
  combine_ident : ∀ b, combine b ident = b
  combine_fold : ∀ b b' a, combine b (fold b' a) = fold (combine b b') a

namespace JoinsFold

variable {ident : β} {fold : β → α → β} {combine : β → β → β}

/-- A piece is joined by going on with it. -/
theorem combine_foldl (h : JoinsFold ident fold combine) (b : β) (l : List α) :
    combine b (l.foldl fold ident) = l.foldl fold b := by
  induction l using List.reverseRecOn with
  | nil => exact h.combine_ident b
  | append_singleton l a ih =>
    simp only [List.foldl_append, List.foldl_cons, List.foldl_nil]
    rw [h.combine_fold, ih]

/-- Pieces are joined one after the other. -/
theorem foldl_combine (h : JoinsFold ident fold combine) (pieces : List (List α)) (b : β) :
    (pieces.map fun piece => piece.foldl fold ident).foldl combine b
      = pieces.flatten.foldl fold b := by
  induction pieces generalizing b with
  | nil => rfl
  | cons piece pieces ih =>
    rw [List.map_cons, List.foldl_cons, h.combine_foldl, ih, List.flatten_cons, List.foldl_append]

end JoinsFold

namespace Split

variable {ident : β} {combine : β → β → β}

/-- **Pieces worked off and joined are the sequence worked off at once.** -/
theorem reduce_fold {fold : β → α → β} (h : JoinsFold ident fold combine)
    (s : Split (List α)) :
    (s.map fun piece => piece.foldl fold ident).reduce ident combine
      = s.items.flatten.foldl fold ident := by
  induction s with
  | piece pieces => exact h.foldl_combine pieces ident
  | join left right ihl ihr =>
    rw [map, reduce, ihl, ihr, h.combine_foldl, items, List.flatten_append, List.foldl_append]

end Split

end ForkJoin
