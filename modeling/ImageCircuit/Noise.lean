import ImageCircuit.Random.ChaCha

/-!
# Coherent noise

A smooth random field over the plane. Each lattice point has one of eight gradients, chosen by a
shuffled table, and between lattice points the contributions of the four corners are blended.

* `Noise.ofSeed`: the field of a seed
* `Noise.at`: the value at a point
-/

namespace ImageCircuit

/-- A noise field: the seed and the table of 512 bytes it was shuffled from. -/
structure Noise where
  seed : UInt64
  table : Array UInt8
  deriving Repr

namespace Noise

/-- The bytes in ascending order. -/
def bytes : Array UInt8 :=
  ((List.range 256).map UInt8.ofNat).toArray

/-- A table of two copies of the bytes in random order. -/
def drawTable {σ : Type} [Source σ] : Draw σ (Array UInt8) := do
  let order ← Draw.shuffle bytes
  pure (order ++ order)

/-- The field of a seed. -/
def ofSeed (seed : UInt64) : Noise where
  seed
  table := (drawTable.run (ChaCha.ofSeed seed)).1

/-- One over the square root of two. -/
def diagonal : Float := 0.7071067811865476

/-- The eight directions of a gradient. -/
def gradients : Vector (Float × Float) 8 :=
  #v[(1, 0), (diagonal, diagonal), (0, 1), (-diagonal, diagonal), (-1, 0), (-diagonal, -diagonal),
    (0, -1), (diagonal, -diagonal)]

/-- The gradient of a table entry applied to an offset from its lattice point. -/
def gradient (entry : UInt8) (x y : Float) : Float :=
  let (gx, gy) := gradients[entry.toNat % 8]
  gx * x + gy * y

/-- The blending weight between two lattice points. -/
def fade (t : Float) : Float :=
  t * t * t * (t * (t * 6 - 15) + 10)

/-- The point at `t` between `a` and `b`. -/
def mix (t a b : Float) : Float :=
  a + t * (b - a)

/-- The lattice coordinate of a number, modulo 256. -/
def lattice (x : Float) : Nat :=
  x.floor.toInt64.toUInt64.toUInt8.toNat

/-- The table entries of the four corners of the cell at `(xi, yi)`, or `none` if a look-up leaves
the table. -/
def corners? (noise : Noise) (xi yi : Nat) : Option (UInt8 × UInt8 × UInt8 × UInt8) := do
  let left ← noise.table[xi]?
  let right ← noise.table[xi + 1]?
  let aa ← noise.table[left.toNat + yi]?
  let ab ← noise.table[left.toNat + yi + 1]?
  let ba ← noise.table[right.toNat + yi]?
  let bb ← noise.table[right.toNat + yi + 1]?
  pure (aa, ab, ba, bb)

/-- The value at a point, or `none` if a look-up leaves the table. -/
def at? (noise : Noise) (x y : Float) : Option Float :=
  (noise.corners? (lattice x) (lattice y)).map fun (aa, ab, ba, bb) =>
    let fx := x - x.floor
    let fy := y - y.floor
    let u := fade fx
    let v := fade fy
    let bottom := mix u (gradient aa fx fy) (gradient ba (fx - 1) fy)
    let top := mix u (gradient ab fx (fy - 1)) (gradient bb (fx - 1) (fy - 1))
    mix v bottom top

/-- The value at a point; a table of 512 entries is never left. -/
def «at» (noise : Noise) (x y : Float) : Float :=
  (noise.at? x y).getD 0

end Noise

end ImageCircuit
