import ImageCircuit.Image.Color

/-!
# Grids of pixels

The pixels of an image, row by row. A column past the width names a pixel of a later row.

* `Grid.get?`, `Grid.set?`: one pixel
* `Grid.rows`, `Grid.cells`, `Grid.bytes`: all pixels, by row, with their places, and as bytes
-/

namespace ImageCircuit

/-- An image: its width, its height and its pixels, row by row. -/
structure Grid where
  width : Nat
  height : Nat
  pixels : Array Pixel
  deriving DecidableEq, Repr

namespace Grid

/-- A black grid. -/
def blank (width height : Nat) : Grid where
  width
  height
  pixels := .replicate (width * height) .black

/-- A black square. -/
def square (size : Nat) : Grid :=
  blank size size

/-- The place of a pixel among all pixels. -/
def index (g : Grid) (x y : Nat) : Nat :=
  y * g.width + x

/-- The pixel in column `x` and row `y`; there is none past the last one. -/
def get? (g : Grid) (x y : Nat) : Option Pixel :=
  g.pixels[g.index x y]?

/-- The grid with another pixel in column `x` and row `y`. -/
def set? (g : Grid) (x y : Nat) (p : Pixel) : Option Grid :=
  if h : g.index x y < g.pixels.size then
    some { g with pixels := g.pixels.set (g.index x y) p h }
  else none

/-- The pixels in a row; the rows of a grid without columns hold one pixel each. -/
def rowLength (g : Grid) : Nat :=
  max g.width 1

/-- The rows that the pixels fill, the last one perhaps in part. -/
def rows (g : Grid) : List (List Pixel) :=
  (List.range ((g.pixels.size + g.rowLength - 1) / g.rowLength)).map fun y =>
    (g.pixels.extract (y * g.rowLength) ((y + 1) * g.rowLength)).toList

/-- The grid with the pixels of row `y` changed, each by a function of its column. -/
def mapRow (g : Grid) (y : Nat) (f : Nat → Pixel → Pixel) : Grid :=
  { g with pixels := g.pixels.mapIdx fun i p =>
      if i / g.rowLength = y then f (i % g.rowLength) p else p }

/-- The grid with the pixels of row `y` replaced, as far as there are new ones. -/
def setRow (g : Grid) (y : Nat) (row : List Pixel) : Grid :=
  g.mapRow y fun x p => row.getD x p

/-- The grid with all pixels of row `y` alike; nothing changes if there is no such row. -/
def fillRow (g : Grid) (y : Nat) (p : Pixel) : Grid :=
  g.mapRow y fun _ _ => p

/-- The pixels with their columns and rows, row by row. -/
def cells (g : Grid) : List (Nat × Nat × Pixel) :=
  g.pixels.toList.zipIdx.map fun (p, i) => (i % g.rowLength, i / g.rowLength, p)

/-- The channels of all pixels, row by row. -/
def bytes (g : Grid) : List UInt8 :=
  g.pixels.toList.flatMap Pixel.bytes

end Grid

end ImageCircuit
