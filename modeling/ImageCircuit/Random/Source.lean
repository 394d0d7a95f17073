/-!
# Sources of random draws

Everything random is written against the class `Source`, whose bounded draws stay below their
bound by type, so what holds of a program that draws holds for every outcome of its draws.

* `choose`: a random member of a list
* `shuffle`: a random order of an array
* `sample`: distinct random numbers below a bound
-/

namespace ImageCircuit

/-- Random draws from a state `σ`. -/
class Source (σ : Type) where
  /-- A number of the unit interval. -/
  unit : σ → Float × σ
  /-- A number up to `n`, drawn from one 32-bit word at a time. -/
  upTo : (n : Nat) → σ → Fin (n + 1) × σ
  /-- A number up to `n`, drawn from two words at a time. -/
  wideUpTo : (n : Nat) → σ → Fin (n + 1) × σ

/-- A computation that draws from a source. -/
abbrev Draw (σ : Type) := StateM σ

namespace Draw

variable {σ : Type} [Source σ] {α : Type}

/-- A number of the unit interval. -/
def unit : Draw σ Float :=
  fun s => Source.unit s

/-- A number up to `n`, from 32-bit words. -/
def upTo (n : Nat) : Draw σ (Fin (n + 1)) :=
  fun s => Source.upTo n s

/-- A number up to `n`, from 64-bit words. -/
def wideUpTo (n : Nat) : Draw σ (Fin (n + 1)) :=
  fun s => Source.wideUpTo n s

/-- A random member of a list; an empty list draws nothing. -/
def choose : List α → Draw σ (Option α)
  | [] => pure none
  | x :: rest => do
    let i ← upTo rest.length
    pure (some ((x :: rest).get i))

/-- Exchanges each position from `i` down to 1 with a random one up to it. -/
def shuffleFrom (xs : Array α) : (i : Nat) → i < xs.size → Draw σ (Array α)
  | 0, _ => pure xs
  | i + 1, h => do
    let j ← upTo (i + 1)
    have hj : j.val < xs.size := by omega
    shuffleFrom (xs.swap (i + 1) j.val h hj) i (by rw [Array.size_swap]; omega)

/-- The members of an array in random order. -/
def shuffle (xs : Array α) : Draw σ (Array α) :=
  if h : xs.size = 0 then pure xs else shuffleFrom xs (xs.size - 1) (by omega)

/-- Adds one number for each bound from `j` on: a random number up to the bound, or in front of
that number the bound itself where the number has been taken already. -/
def sampleFrom (j : Nat) : (count : Nat) → List Nat → Draw σ (List Nat)
  | 0, taken => pure taken
  | count + 1, taken => do
    let t ← upTo j
    let taken := match taken.idxOf? t.val with
      | some position => taken.insertIdx position j
      | none => taken ++ [t.val]
    sampleFrom (j + 1) count taken

/-- `amount` distinct numbers below `length`, in random order. -/
def sample (length amount : Nat) : Draw σ (List Nat) :=
  sampleFrom (length - amount) amount []

end Draw

end ImageCircuit
