/-!
# Colors

* `Color`: three channels as numbers, added up over samples
* `Pixel`: three channels as bytes
* `Color.toPixel`: the channels cut to the unit interval and scaled to bytes
-/

namespace ImageCircuit

/-- A color as three numbers; the unit interval is the visible range. -/
structure Color where
  r : Float
  g : Float
  b : Float
  deriving Repr

/-- A color as three bytes. -/
structure Pixel where
  r : UInt8
  g : UInt8
  b : UInt8
  deriving DecidableEq, Repr, Inhabited

namespace Color

/-- The color of no light. -/
def black : Color where
  r := 0
  g := 0
  b := 0

/-- The color of the first three numbers; missing channels read 0. -/
def ofChannels (values : List Float) : Color where
  r := values.getD 0 0
  g := values.getD 1 0
  b := values.getD 2 0

/-- The sum of two colors, channel by channel. -/
def add (c d : Color) : Color where
  r := c.r + d.r
  g := c.g + d.g
  b := c.b + d.b

/-- The color with every channel divided by a number. -/
def divide (c : Color) (x : Float) : Color where
  r := c.r / x
  g := c.g / x
  b := c.b / x

/-- The number cut to the unit interval; what is not a number is 0. -/
def clamp (x : Float) : Float :=
  if x > 1 then 1 else if x ≥ 0 then x else 0

/-- The byte of a channel, rounded down. -/
def channelByte (x : Float) : UInt8 :=
  (clamp x * 255).toUInt8

/-- The bytes of the channels. -/
def toPixel (c : Color) : Pixel where
  r := channelByte c.r
  g := channelByte c.g
  b := channelByte c.b

end Color

namespace Pixel

/-- The pixel of no light. -/
def black : Pixel where
  r := 0
  g := 0
  b := 0

/-- The bytes of the channels. -/
def bytes (p : Pixel) : List UInt8 :=
  [p.r, p.g, p.b]

/-- The pixel of three bytes. -/
def ofBytes? : List UInt8 → Option Pixel
  | [r, g, b] => some ⟨r, g, b⟩
  | _ => none

@[simp] theorem length_bytes (p : Pixel) : p.bytes.length = 3 := rfl

end Pixel

end ImageCircuit
