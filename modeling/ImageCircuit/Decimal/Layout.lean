import ImageCircuit.Decimal.Shortest

/-!
# Decimal text of doubles

* `text`: the shortest digits that read back, written without an exponent
* `fixed`: a given number of places after the point
-/

namespace ImageCircuit.Decimal

/-- The decimal digits of a natural number. -/
def digitsOf (n : Nat) : List Char :=
  Nat.toDigits 10 n

/-- A decimal written without an exponent; a whole number has no point. -/
def Scientific.positional (s : Scientific) : List Char :=
  let digits := digitsOf s.digits
  let places := (-s.exponent).toNat
  if places = 0 then digits ++ List.replicate s.exponent.toNat '0'
  else if places < digits.length then
    let whole := digits.length - places
    digits.take whole ++ '.' :: digits.drop whole
  else '0' :: '.' :: List.replicate (places - digits.length) '0' ++ digits

/-- The sign written in front of a number. -/
def signText (negative : Bool) : List Char :=
  if negative then ['-'] else []

/-- Writes the digits of a finite double with `write`, which is given its mantissa and exponent. -/
def Parts.layout (write : Nat → Int → List Char) : Parts → List Char
  | .nan => ['N', 'a', 'N']
  | .infinite negative => signText negative ++ ['i', 'n', 'f']
  | .finite negative mantissa exponent => signText negative ++ write mantissa exponent

/-- The characters of the shortest text that reads back to the same double, ties going up. -/
def textChars (x : Float) : List Char :=
  (Parts.ofFloat x).layout fun mantissa exponent =>
    if mantissa = 0 then ['0'] else (shortest .up mantissa exponent).positional

/-- The shortest digits that read back to the same double, as a string. -/
def text (x : Float) : String :=
  .ofList (textChars x)

/-- The number in units of the last of `places` places after the point, rounded from its exact
value with ties to the even digit. -/
def roundToPlaces (places mantissa : Nat) (exponent : Int) : Nat :=
  let (num, den) := scaleDown (mantissa * tenPow places) 1 (-exponent)
  divRoundEven num den

/-- A double with `places` places after the point, the sign of a zero kept. -/
def fixed (places : Nat) (x : Float) : String :=
  .ofList <| (Parts.ofFloat x).layout fun mantissa exponent =>
    let units := roundToPlaces places mantissa exponent
    let fraction := digitsOf (units % tenPow places)
    digitsOf (units / tenPow places) ++
      '.' :: List.replicate (places - fraction.length) '0' ++ fraction

example : (⟨15, -1⟩ : Scientific).positional = "1.5".toList := by decide +kernel
example : (⟨5, -3⟩ : Scientific).positional = "0.005".toList := by decide +kernel
example : (⟨12, 2⟩ : Scientific).positional = "1200".toList := by decide +kernel

end ImageCircuit.Decimal
