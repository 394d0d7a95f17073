/-!
# Rectangles of the unit square

* `Rect.forPixel`: the cell of a pixel
-/

namespace ImageCircuit

/-- A rectangle by its lower and upper bounds on both axes. -/
structure Rect where
  xlow : Float
  ylow : Float
  xhigh : Float
  yhigh : Float
  deriving Repr

namespace Rect

/-- The cell in column `x` and row `y` of a grid laid over the unit square. -/
def forPixel (x y width height : Nat) : Rect where
  xlow := x.toFloat / width.toFloat
  ylow := y.toFloat / height.toFloat
  xhigh := (x + 1).toFloat / width.toFloat
  yhigh := (y + 1).toFloat / height.toFloat

/-- The extent on the first axis. -/
def width (r : Rect) : Float :=
  r.xhigh - r.xlow

/-- The extent on the second axis. -/
def height (r : Rect) : Float :=
  r.yhigh - r.ylow

end Rect

end ImageCircuit
