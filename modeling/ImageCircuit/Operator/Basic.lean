/-!
# Primitive operators

* `Operator.all`: every operator, by number of arguments
* `Operator.ofSymbol?`: the operator that a word of program text names
-/

namespace ImageCircuit

/-- A primitive function of numbers. -/
inductive Operator where
  | const
  | x2 | x3 | cos | sin | tri | inv | band | bw
  | add | mul | div | sub | min | max | and | or | xor | noise
  | lerp | cond
  deriving DecidableEq, Repr, Inhabited

namespace Operator

/-- Every operator, those with fewer arguments first. -/
def all : List Operator :=
  [const, x2, x3, cos, sin, tri, inv, band, bw, add, mul, div, sub, min, max, and, or, xor, noise,
    lerp, cond]

/-- The word for an operator in program text. -/
def symbol : Operator → String
  | const => "="
  | x2 => "x2"
  | x3 => "x3"
  | cos => "cos"
  | sin => "sin"
  | tri => "tri"
  | inv => "inv"
  | band => "band"
  | bw => "bw"
  | add => "+"
  | mul => "*"
  | div => "/"
  | sub => "-"
  | min => "min"
  | max => "max"
  | and => "and"
  | or => "or"
  | xor => "xor"
  | noise => "noise"
  | lerp => "lerp"
  | cond => "if"

/-- How many nodes an operator reads. A constant reads a literal instead. -/
def arity : Operator → Nat
  | const => 0
  | x2 | x3 | cos | sin | tri | inv | band | bw => 1
  | add | mul | div | sub | min | max | and | or | xor | noise => 2
  | lerp | cond => 3

/-- The greatest number of arguments of any operator. -/
def maxArity : Nat := 3

/-- The operator with this symbol. -/
def ofSymbol? (symbol : String) : Option Operator :=
  all.find? (·.symbol == symbol)

/-- Whether a word is the symbol of an operator. -/
def isSymbol (word : String) : Bool :=
  (ofSymbol? word).isSome

/-- The operators with exactly `n` arguments. -/
def withArity (n : Nat) : List Operator :=
  all.filter (·.arity = n)

/-- The operators with at most `n` arguments. -/
def upToArity (n : Nat) : List Operator :=
  all.filter (·.arity ≤ n)

theorem arity_le_maxArity (op : Operator) : op.arity ≤ maxArity := by
  cases op <;> decide

theorem arity_eq_zero_iff {op : Operator} : op.arity = 0 ↔ op = const := by
  cases op <;> decide

/-- Symbols are unambiguous. -/
theorem ofSymbol?_symbol (op : Operator) : ofSymbol? op.symbol = some op := by
  cases op <;> decide

theorem symbol_of_ofSymbol? {word : String} {op : Operator} (h : ofSymbol? word = some op) :
    op.symbol = word := by
  simpa using List.find?_some h

end Operator

end ImageCircuit
