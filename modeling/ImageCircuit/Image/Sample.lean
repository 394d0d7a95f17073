import ImageCircuit.Image.Rect
import ImageCircuit.Operator.Formula
import ImageCircuit.Random.Source

/-!
# Sample points

* `samplePoints`: random points of a rectangle, one in each stratum of either axis
* `features`: what a program is told about a point
-/

namespace ImageCircuit

variable {σ : Type} [Source σ]

/-- The point of stratum `i` at offset `u` of the unit interval. -/
def stratumPoint (low size : Float) (i : Nat) (u : Float) : Float :=
  low + i.toFloat * size + size * u

/-- A random point of each of `n` strata of the given size. -/
def strata (low size : Float) (n : Nat) : Draw σ (List Float) :=
  (List.range n).mapM fun i => do
    let u ← Draw.unit
    return stratumPoint low size i u

/-- `n` random points of a rectangle. Both axes are cut into `n` strata with one coordinate in
each, and the coordinates are paired at random. -/
def samplePoints (rect : Rect) (n : Nat) : Draw σ (List (Float × Float)) := do
  let xs ← strata rect.xlow (rect.width / n.toFloat) n
  let ys ← strata rect.ylow (rect.height / n.toFloat) n
  let xs ← Draw.shuffle xs.toArray
  let ys ← Draw.shuffle ys.toArray
  return xs.toList.zip ys.toList

/-- The coordinates of a point, its distance from the center of the unit square, and its angle
around it as a part of the full turn. -/
def features (x y : Float) : List Float :=
  let dx := x - 0.5
  let dy := y - 0.5
  [x, y, (dx * dx + dy * dy).sqrt, Float.atan2 dy dx / (2 * Operator.pi) + 0.5]

end ImageCircuit
