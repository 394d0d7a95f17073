import ImageCircuit.Error
import ImageCircuit.Image.Grid
import ImageCircuit.Json.Parser
import ImageCircuit.Json.Printer
import ImageCircuit.Json.Record

/-!
# Grids as JSON

* `Grid.parse`: the grid that a document describes; the number of pixels is not checked
* `Grid.text`: the document of a grid
-/

namespace ImageCircuit

/-- A pixel is an array of three bytes. -/
def Pixel.ofJson? (j : Json) : Option Pixel := do
  let items ← j.items?
  let bytes ← items.mapM fun item => do
    let n ← item.nat?
    if n < 256 then some (UInt8.ofNat n) else none
  ofBytes? bytes

/-- The array of a pixel's bytes. -/
def Pixel.toJson (p : Pixel) : Json :=
  .array (p.bytes.map fun byte => .ofNat byte.toNat)

namespace Grid

/-- The keys of a grid, in order. -/
def fieldNames : List String :=
  ["width", "height", "pixels"]

/-- A grid is a record with all three fields. -/
def ofJson? (j : Json) : Option Grid := do
  let fields ← Json.record? fieldNames j
  let width ← (← fields.lookup "width").nat?
  let height ← (← fields.lookup "height").nat?
  let items ← (← fields.lookup "pixels").items?
  let pixels ← items.mapM Pixel.ofJson?
  some { width, height, pixels := pixels.toArray }

/-- The record of a grid. -/
def toJson (g : Grid) : Json :=
  .fields [("width", .ofNat g.width), ("height", .ofNat g.height),
    ("pixels", .array (g.pixels.toList.map Pixel.toJson))]

/-- The grid that a document describes. -/
def parse (document : String) : Except Error Grid :=
  match (Json.parse? document).bind ofJson? with
  | some g => .ok g
  | none => .error .undecodable

/-- The document of a grid. -/
def text (g : Grid) : String :=
  g.toJson.compact

end Grid

end ImageCircuit
