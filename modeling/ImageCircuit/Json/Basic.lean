import ImageCircuit.Decimal.Layout
import ImageCircuit.Decimal.Read

/-!
# JSON values

A value keeps what its text says: a number its digits, an object its members in order, also
repeated ones. A string with an escape that stands for no character is `none`.

* `Number.toNat?`, `Number.toFloat?`: the numbers that a literal stands for
* `Number.ofNat`, `Number.ofFloat?`: the literals of numbers
-/

namespace ImageCircuit.Json

/-- A number in digits: `whole.fraction` times ten to the exponent. Without a fraction there is no
point. -/
structure Number where
  negative : Bool
  whole : List Char
  fraction : List Char
  /-- Whether the exponent is negative, and its digits. -/
  exponent : Option (Bool × List Char)
  deriving DecidableEq, Repr

end Json

/-- A JSON value. -/
inductive Json where
  | null
  | bool (value : Bool)
  | number (value : Json.Number)
  | string (value : Option String)
  | array (items : List Json)
  | object (members : List (Option String × Json))
  deriving Repr

namespace Json

/-- A string all of whose escapes stand for characters. -/
def text (s : String) : Json :=
  .string (some s)

/-- An object with these members. -/
def fields (members : List (String × Json)) : Json :=
  .object (members.map fun (name, value) => (some name, value))

namespace Number

/-- The literal of a natural number. -/
def ofNat (n : Nat) : Number where
  negative := false
  whole := Decimal.digitsOf n
  fraction := []
  exponent := none

/-- A natural number below `2 ^ 64`, written without sign, point and exponent. -/
def toNat? (n : Number) : Option Nat :=
  if n.negative || !n.fraction.isEmpty || n.exponent.isSome then none
  else Decimal.readCount n.whole

/-! ## Literals of doubles -/

/-- The literal of a decimal. The point stands among the digits or up to four zeros in front of
them, and numbers of at most sixteen places before the point are written out; others have an
exponent. -/
def ofScientific (negative : Bool) (s : Decimal.Scientific) : Number :=
  let digits := Decimal.digitsOf s.digits
  let point : Int := digits.length + s.exponent
  if 0 ≤ s.exponent ∧ point ≤ 16 then
    { negative, whole := digits ++ List.replicate s.exponent.toNat '0', fraction := ['0'],
      exponent := none }
  else if 0 < point ∧ point ≤ 16 then
    { negative, whole := digits.take point.toNat, fraction := digits.drop point.toNat,
      exponent := none }
  else if -5 < point ∧ point ≤ 0 then
    { negative, whole := ['0'], fraction := List.replicate (-point).toNat '0' ++ digits,
      exponent := none }
  else
    { negative, whole := digits.take 1, fraction := digits.drop 1,
      exponent := some (point - 1 < 0, Decimal.digitsOf (point - 1).natAbs) }

/-- The literal of a finite double, with the shortest digits that read back and ties going to the
even digit. Infinite values and the value that is not a number have none. -/
def ofFloat? (x : Float) : Option Number :=
  match Decimal.Parts.ofFloat x with
  | .finite negative mantissa exponent =>
    if mantissa = 0 then
      some { negative, whole := ['0'], fraction := ['0'], exponent := none }
    else some (ofScientific negative (Decimal.shortest .even mantissa exponent))
  | _ => none

/-! ## Reading doubles -/

/-- The digits of a literal as far as they fit into 64 bits. -/
structure Significand where
  value : Nat
  /-- The power of ten that the value counts. -/
  exponent : Int
  deriving DecidableEq, Repr

/-- Takes digits before the point. From the first one that does not fit, digits only count. -/
def takeWhole : Significand → List Char → Significand
  | s, [] => s
  | s, c :: rest =>
    let value := 10 * s.value + Decimal.ofDigits [c]
    if value < Decimal.wordLimit then takeWhole { s with value } rest
    else { s with exponent := s.exponent + (rest.length + 1) }

/-- Takes digits after the point. From the first one that does not fit, digits are dropped. -/
def takeFraction : Significand → List Char → Significand
  | s, [] => s
  | s, c :: rest =>
    let value := 10 * s.value + Decimal.ofDigits [c]
    if value < Decimal.wordLimit then takeFraction { value, exponent := s.exponent - 1 } rest
    else s

/-- The double nearest to a power of ten. -/
def powerOfTen (n : Nat) : Float :=
  Decimal.nearest false (Decimal.tenPow n) 1

/-- Divides by a power of ten, in steps of at most `10 ^ 308`. -/
def divideByPower (x : Float) (n : Nat) : Float :=
  if n ≤ 308 then x / powerOfTen n
  else if x == 0 then x
  else divideByPower (x / powerOfTen 308) (n - 308)
  termination_by n

/-- Multiplies by a power of ten; a result that is not finite is refused. -/
def timesPower? (x : Float) (n : Nat) : Option Float :=
  if n ≤ 308 then
    let y := x * powerOfTen n
    if y.isFinite then some y else none
  else if x == 0 then some x
  else none

/-- The exponent of a literal. -/
def exponentValue (n : Number) : Int :=
  match n.exponent with
  | none => 0
  | some (negative, digits) =>
    if negative then -(Decimal.ofDigits digits : Int) else Decimal.ofDigits digits

/-- The double of a literal: its leading digits as a 64-bit number, rounded, and then multiplied or
divided by the power of ten. The result can differ in the last bits from the nearest double. A
literal beyond the range of doubles is refused, and one too close to zero is zero. -/
def toFloat? (n : Number) : Option Float :=
  let s := takeFraction (takeWhole ⟨0, 0⟩ n.whole) n.fraction
  let exponent := s.exponent + n.exponentValue
  let start := (UInt64.ofNat s.value).toFloat
  let magnitude :=
    if 0 ≤ exponent then timesPower? start exponent.toNat
    else some (divideByPower start exponent.natAbs)
  magnitude.map fun x => if n.negative then -x else x

end Number

end Json

end ImageCircuit
