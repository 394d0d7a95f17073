import ImageCircuit.Decimal.Binary

/-!
# The shortest decimal of a double

* `shortest`: the fewest digits that read back to the same double, nearest first

For one digit, two digits and so on the two neighbours of the number on the grid of that many
digits are tested against the interval of numbers that round to the double. The first grid with a
hit wins; of two hits the nearer one is taken, and if both are equally near, the format decides.
-/

namespace ImageCircuit.Decimal

/-- The number `digits * 10 ^ exponent`. -/
structure Scientific where
  digits : Nat
  exponent : Int
  deriving DecidableEq, Repr

/-- How many decimal digits a natural number has; none for zero. -/
def digitCount (n : Nat) : Nat :=
  if n = 0 then 0 else digitCount (n / 10) + 1
  decreasing_by omega

/-- The exponent of ten of the leading digit of the positive number `num / den`. -/
def leadingExponent (num den : Nat) : Int :=
  if den ≤ num then digitCount (num / den) - 1
  else -(digitCount ((den - 1) / num) : Nat)

/-- The numbers that round to a double, in quarters of its last place. -/
structure Interval where
  low : Nat
  mid : Nat
  high : Nat
  closed : Bool
  deriving DecidableEq, Repr

/-- The interval of a mantissa. The gap below a power of two is half as wide as the gap above it,
and the ends round to the even mantissa. -/
def Interval.ofMantissa (mantissa : Nat) : Interval where
  low := 4 * mantissa - (if mantissa = leadingBit then 1 else 2)
  mid := 4 * mantissa
  high := 4 * mantissa + 2
  closed := mantissa % 2 = 0

/-- Whether the point `n`, on a scale where the interval's quarters are `quarter` apart, lies in
the interval. -/
def Interval.holds (i : Interval) (quarter n : Nat) : Bool :=
  if i.closed then i.low * quarter ≤ n && n ≤ i.high * quarter
  else i.low * quarter < n && n < i.high * quarter

/-- Which of two decimals a format takes that are equally near to a number. -/
inductive Tie where
  | up
  /-- The one whose last digit is even. -/
  | even
  deriving DecidableEq, Repr

/-- The digits that a tie between `lower` and `lower + 1` goes to. -/
def Tie.pick (lower : Nat) : Tie → Nat
  | up => lower + 1
  | even => lower + lower % 2

/-- The point of the grid `10 ^ e` that lies in the interval and nearest to its middle, where a
quarter of the interval is `2 ^ q`. -/
def Interval.onGrid? (i : Interval) (tie : Tie) (q e : Int) : Option Nat :=
  let point := tenPow e.toNat <<< (-q).toNat
  let quarter := tenPow (-e).toNat <<< q.toNat
  let lower := i.mid * quarter / point
  let upper := lower + 1
  match i.holds quarter (lower * point), i.holds quarter (upper * point) with
  | true, false => some lower
  | false, true => some upper
  | true, true =>
    let below := i.mid * quarter - lower * point
    let above := upper * point - i.mid * quarter
    if below < above then some lower
    else if above < below then some upper
    else some (tie.pick lower)
  | false, false => none

/-- The shortest decimal that rounds to the positive double `mantissa * 2 ^ exponent`; seventeen
digits are always enough. -/
def shortest (tie : Tie) (mantissa : Nat) (exponent : Int) : Scientific :=
  let interval := Interval.ofMantissa mantissa
  let (num, den) := scaleDown mantissa 1 (-exponent)
  let leading := leadingExponent num den
  let hit := (List.range 17).findSome? fun (more : Nat) =>
    (interval.onGrid? tie (exponent - 2) (leading - more)).map fun digits =>
      if digits = tenPow (more + 1) then ⟨1, leading + 1⟩ else ⟨digits, leading - more⟩
  hit.getD ⟨mantissa, exponent⟩

example : shortest .up 1 (-1074) = ⟨5, -324⟩ := by decide +kernel
example : shortest .up 0x1999999999999A (-56) = ⟨1, -1⟩ := by decide +kernel
example : shortest .up 0x10001000000000 (-53) = ⟨5000076293945313, -16⟩ := by decide +kernel
example : shortest .even 0x10001000000000 (-53) = ⟨5000076293945312, -16⟩ := by decide +kernel

end ImageCircuit.Decimal
