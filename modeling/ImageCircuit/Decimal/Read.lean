import ImageCircuit.Decimal.Binary

/-!
# Reading numbers

* `readCount`: a natural number below `2 ^ 64`
* `readFloat`: a decimal number, rounded correctly to a double
-/

namespace ImageCircuit.Decimal

/-- The value of a run of decimal digits. -/
def ofDigits (digits : List Char) : Nat :=
  digits.foldl (fun n c => 10 * n + (c.toNat - '0'.toNat)) 0

/-- The digits a text starts with and what follows them. -/
def spanDigits (s : List Char) : List Char × List Char :=
  (s.takeWhile Char.isDigit, s.dropWhile Char.isDigit)

/-- The numbers of 64 bits are those below this one. -/
def wordLimit : Nat := 0x10000000000000000

/-- A natural number below `2 ^ 64` in decimal digits, after an optional plus sign. -/
def readCount (s : List Char) : Option Nat :=
  let digits := match s with
    | '+' :: rest => rest
    | _ => s
  if digits.isEmpty || !digits.all Char.isDigit then none
  else
    let n := ofDigits digits
    if n < wordLimit then some n else none

/-- Splits a sign off a text; the first part says whether it was a minus. -/
def splitSign : List Char → Bool × List Char
  | '+' :: rest => (false, rest)
  | '-' :: rest => (true, rest)
  | s => (false, s)

/-- The double nearest to `± digits * 10 ^ exponent`. Numbers beyond the range of doubles are
recognized by their leading digit, so that no huge power of ten is computed. -/
def ofDecimal (negative : Bool) (digits : List Char) (exponent : Int) : Float :=
  let n := ofDigits digits
  let leading : Int := (digits.dropWhile (· == '0')).length + exponent
  if n = 0 || leading < -330 then signed negative 0
  else if 310 < leading then signed negative infinityBits
  else nearest negative (n * tenPow exponent.toNat) (tenPow (-exponent).toNat)

/-- The exponent that ends a number: nothing, or a mark and an integer. -/
def readExponent : List Char → Option Int
  | [] => some 0
  | mark :: rest =>
    if mark.toLower != 'e' then none
    else
      let (negative, digits) := splitSign rest
      if digits.isEmpty || !digits.all Char.isDigit then none
      else if negative then some (-(ofDigits digits : Int))
      else some (ofDigits digits)

/-- A number in digits with an optional point, at least one digit beside it, and an optional
exponent. -/
def readUnsigned (negative : Bool) (s : List Char) : Option Float :=
  let (whole, rest) := spanDigits s
  let (fraction, rest) := match rest with
    | '.' :: rest => spanDigits rest
    | _ => ([], rest)
  if (whole ++ fraction).isEmpty then none
  else (readExponent rest).map fun exponent =>
    ofDecimal negative (whole ++ fraction) (exponent - fraction.length)

/-- A decimal number after an optional sign, or one of the names of infinity and of the value
that is not a number, in letters of either case. -/
def readFloat (s : List Char) : Option Float :=
  let (negative, body) := splitSign s
  match String.ofList (body.map Char.toLower) with
  | "inf" | "infinity" => some (signed negative infinityBits)
  | "nan" => some (0 / 0)
  | _ => readUnsigned negative body

example : readCount "+012".toList = some 12 := by decide
example : readCount "18446744073709551616".toList = none := by decide +kernel
example : readCount "-1".toList = none := by decide

end ImageCircuit.Decimal
