import Mathlib.Data.Rat.Init
import Mathlib.Algebra.Order.Ring.Abs
import Mathlib.Data.Rat.Cast.Order

/-!
# Points, rectangles and nodes

Coordinates are taken in exact arithmetic: a float stands for the rational it denotes.

## Main definitions

* `Point`, `Rect` — points and axis-parallel rectangles.
* `Node` — an identifier with a position.

## References

`src/libs/routers_network/src/primitive/node.rs`.
-/

namespace Routers

/-- A point, by longitude and latitude. -/
structure Point where
  x : ℚ
  y : ℚ
  deriving DecidableEq, Repr, Inhabited

/-- A rectangle, by its lower left and its upper right corner. -/
structure Rect where
  min : Point
  max : Point
  deriving DecidableEq, Repr, Inhabited

/-- Whether a point lies in a rectangle, its sides included. -/
def Rect.contains (rect : Rect) (point : Point) : Bool :=
  decide (rect.min.x ≤ point.x) && decide (point.x ≤ rect.max.x) &&
    decide (rect.min.y ≤ point.y) && decide (point.y ≤ rect.max.y)

/-- A node, by what identifies it and where it lies. -/
structure Node (E P : Type) where
  id : E
  position : P
  deriving DecidableEq, Repr, Inhabited

theorem Node.ext {E P : Type} {a b : Node E P} (hid : a.id = b.id)
    (hposition : a.position = b.position) : a = b := by
  cases a
  cases b
  cases hid
  cases hposition
  rfl

end Routers
