/-!
# Doubles as exact numbers

A finite double is a natural mantissa times a power of two. All decimal text of doubles is made
and read in exact arithmetic on these parts.

* `Parts.ofFloat`: the parts of a double
* `nearest`: the double nearest to a quotient of natural numbers, ties to the even mantissa
* `divRoundEven`: the integer nearest to a quotient, ties to the even one
-/

namespace ImageCircuit.Decimal

/-- What the bits of a double stand for. -/
inductive Parts where
  | nan
  | infinite (negative : Bool)
  /-- The number `± mantissa * 2 ^ exponent`. -/
  | finite (negative : Bool) (mantissa : Nat) (exponent : Int)
  deriving DecidableEq, Repr

/-- The smallest mantissa of 53 bits, which is also the step between the bits of two exponents. -/
def leadingBit : Nat := 0x10000000000000

/-- The bit that makes a double negative. -/
def signBit : Nat := 0x8000000000000000

/-- The exponent of the smallest positive double. -/
def minExponent : Int := -1074

/-- The parts of the double with these bits. -/
def Parts.ofBits (bits : UInt64) : Parts :=
  let n := bits.toNat
  let negative := signBit ≤ n
  let exponent := n / leadingBit % 2048
  let fraction := n % leadingBit
  if exponent = 2047 then
    if fraction = 0 then .infinite negative else .nan
  else if exponent = 0 then .finite negative fraction minExponent
  else .finite negative (leadingBit + fraction) (minExponent + (exponent - 1 : Nat))

/-- The parts of a double. -/
def Parts.ofFloat (x : Float) : Parts :=
  .ofBits x.toBits

/-- The powers of ten. -/
def tenPow (n : Nat) : Nat :=
  Nat.pow 10 n

/-- The integer nearest to `num / den`, a tie going to the even neighbour. -/
def divRoundEven (num den : Nat) : Nat :=
  let quotient := num / den
  let twice := 2 * (num % den)
  if twice < den then quotient
  else if den < twice then quotient + 1
  else quotient + quotient % 2

/-- The quotient `num / den / 2 ^ q` as a numerator and a denominator. -/
def scaleDown (num den : Nat) (q : Int) : Nat × Nat :=
  (num <<< (-q).toNat, den <<< q.toNat)

/-- The exponent at which the positive number `num / den` has a mantissa of 53 bits, or the
smallest exponent of all. -/
def mantissaExponent (num den : Nat) : Int :=
  let guess : Int := num.log2 - den.log2 - 53
  let (n, d) := scaleDown num den guess
  max minExponent (if n / d < 2 * leadingBit then guess else guess + 1)

/-- Bits of positive infinity. -/
def infinityBits : Nat := 0x7FF0000000000000

/-- The bits of the double nearest to `num / den`: the mantissa counts on from the bits of the
power of two, so that a mantissa rounded up to 54 bits gives the next power of two. -/
def nearestBits (num den : Nat) : Nat :=
  if num = 0 then 0
  else
    let q := mantissaExponent num den
    let (n, d) := scaleDown num den q
    min infinityBits ((q - minExponent).toNat * leadingBit + divRoundEven n d)

/-- The double with this sign and these bits of its magnitude. -/
def signed (negative : Bool) (bits : Nat) : Float :=
  .ofBits (.ofNat (if negative then signBit + bits else bits))

/-- The double nearest to `± num / den`. -/
def nearest (negative : Bool) (num den : Nat) : Float :=
  signed negative (nearestBits num den)

example : divRoundEven 5 2 = 2 ∧ divRoundEven 7 2 = 4 := by decide
example : nearestBits 1 10 = 0x3FB999999999999A := by decide +kernel

end ImageCircuit.Decimal
