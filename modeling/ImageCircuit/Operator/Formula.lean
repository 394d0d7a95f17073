import ImageCircuit.Operator.Basic

/-!
# What the operators compute

Truth is coded by numbers: whatever exceeds one half is true, and the answers are 0 and 1.
-/

namespace ImageCircuit

namespace Operator

/-- The ratio of a circle's circumference to its diameter. -/
def pi : Float := 3.141592653589793

/-- Whether a number stands for true. -/
def holds (x : Float) : Bool :=
  x > 0.5

/-- The number that stands for a truth value. -/
def indicator (b : Bool) : Float :=
  if b then 1 else 0

/-- The value of an operator whose missing arguments read 0, over a noise field. -/
def apply (field : Float → Float → Float) (op : Operator) (args : List Float) : Float :=
  let a := args.getD 0 0
  let b := args.getD 1 0
  let c := args.getD 2 0
  match op with
  | const => a
  | x2 => if a < 0.5 then 2 * a else 2 * a - 1
  | x3 => if a < 0.3333 then 3 * a else if a < 0.6666 then 3 * a - 1 else 3 * a - 2
  | cos => (1 + (2 * pi * a).cos) / 2
  | sin => (1 + (2 * pi * a).sin) / 2
  | tri => if a < 0.5 then 2 * a else 2 * (1 - a)
  | inv => 1 - a
  | band => indicator (a > 0.33 && a < 0.66)
  | bw => indicator (holds a)
  | add => (a + b) / 2
  | sub => a - b
  | mul => a * b
  | div => a / b
  | min => if a < b then a else b
  | max => if a > b then a else b
  | and => indicator (holds a && holds b)
  | or => indicator (holds a || holds b)
  | xor => indicator (holds a != holds b)
  | noise => 0.5 + field (10 * a) (10 * b)
  | lerp => a * b + (1 - a) * c
  | cond => if holds a then b else c

end Operator

end ImageCircuit
