import ImageCircuit.Circuit.Basic
import ImageCircuit.Module.Order
import ImageCircuit.Settings.Basic

/-!
# Mutation

* `Module.mutateOperator`: another operator with the same number of arguments for a random node
* `Module.mutateConnection`: two argument links exchange their targets
* `Module.mutate`: each kind with its own probability
* `Circuit.mutated`, `Circuit.mutants`: mutated copies of a circuit

A mutation that finds nothing to change says so and leaves the module as it is.
-/

namespace ImageCircuit

/-- Why a mutation found nothing to change. -/
inductive Obstacle where
  | noOperator
  | noAlternative
  | noLinks
  | noPair
  deriving DecidableEq, Repr

/-- The wording of an obstacle. -/
def Obstacle.text : Obstacle → String
  | noOperator => "no unary or binary node"
  | noAlternative => "no alternative operator"
  | noLinks => "no edges"
  | noPair => "no swappable edge pair"

/-- What one mutation did. Positions are those of the module before it. -/
inductive Outcome where
  | operatorChanged (node : Nat) (before after : Operator)
  | connectionSwapped (first second : Link)
  | notApplicable (obstacle : Obstacle)
  deriving DecidableEq, Repr

/-- Whether a mutation changed something. -/
def Outcome.isApplied : Outcome → Bool
  | notApplicable _ => false
  | _ => true

namespace Module

variable {σ : Type} [Source σ]

/-! ## Operators -/

/-- The nodes with one or two arguments and their operators. -/
def mutableNodes (m : Module) : List (Nat × Operator) :=
  m.nodes.zipIdx.filterMap fun (node, i) =>
    match node.op.operator? with
    | some op => if op.arity = 1 ∨ op.arity = 2 then some (i, op) else none
    | none => none

/-- The other operators with as many arguments. -/
def alternatives (op : Operator) : List Operator :=
  (Operator.withArity op.arity).filter (· ≠ op)

/-- Replaces the operation of node `i`. -/
def setOp (m : Module) (i : Nat) (op : Op) : Module :=
  { m with nodes := m.nodes.modify i fun node => { node with op } }

/-- Gives a random node with one or two arguments another operator. -/
def mutateOperator (m : Module) : Draw σ (Outcome × Module) := do
  match ← Draw.choose m.mutableNodes with
  | none => return (.notApplicable .noOperator, m)
  | some (i, before) =>
    match ← Draw.choose (alternatives before) with
    | none => return (.notApplicable .noAlternative, m)
    | some after => return (.operatorChanged i before after, m.setOp i (.prim after))

/-! ## Connections -/

/-- The node that a link points at. -/
def target (m : Module) (l : Link) : Nat :=
  (m.argsOf l.node).getD l.slot 0

/-- Points a link at another node. -/
def setTarget (m : Module) (l : Link) (t : Nat) : Module :=
  { m with nodes := m.nodes.modify l.node fun node =>
      { node with args := node.args.set l.slot t } }

/-- Exchanges the targets of two links. -/
def swapTargets (m : Module) (a b : Link) : Module :=
  (m.setTarget a (m.target b)).setTarget b (m.target a)

/-- The links of the nodes that node `n` neither depends on nor is an argument of, even through
other nodes. Exchanging one of them with a link of `n` closes no cycle. -/
def strangers (m : Module) (n : Nat) : Except Error (List Link) := do
  let below ← m.reachableFrom [n]
  let above ← m.dependentsOf n
  return m.links fun i => !below.getD i false && !above.getD i false

/-- Why an exchange of two links failed: sorting met a cycle after it. -/
def swapFailure (first second : Link) : Error → Error
  | .cycle name unranked => .swapCycle first second name unranked
  | e => e

/-- Exchanges the targets of two links in place and sorts the module again. If it cannot be sorted
any more, the targets are exchanged back. -/
def swapInPlace (first second : Link) : ExceptT Error (StateM Module) Outcome := do
  modify (·.swapTargets first second)
  try sortInPlace
  catch e =>
    modify (·.swapTargets first second)
    throw (swapFailure first second e)
  return .connectionSwapped first second

/-- What an exchange of two links answers and leaves. -/
def swapSorted (m : Module) (first second : Link) : Except Error Outcome × Module :=
  (swapInPlace first second).run m

/-- Looks for a pair of links a number of times and exchanges the first pair found. -/
def swapWithin (m : Module) (links : List Link) :
    (attempts : Nat) → Draw σ (Except Error Outcome × Module)
  | 0 => return (.ok (.notApplicable .noPair), m)
  | attempts + 1 => do
    match ← Draw.choose links with
    | none => return (.ok (.notApplicable .noPair), m)
    | some first =>
      match m.strangers first.node with
      | .error e => return (.error e, m)
      | .ok others =>
        match ← Draw.choose others with
        | none => swapWithin m links attempts
        | some second => return m.swapSorted first second

/-- Exchanges the targets of two random links of nodes that do not depend on each other. -/
def mutateConnection (m : Module) (attempts : Nat) : Draw σ (Except Error Outcome × Module) :=
  let links := m.links fun _ => true
  if links.isEmpty then return (.ok (.notApplicable .noLinks), m)
  else m.swapWithin links attempts

/-! ## Both -/

/-- Applies the operator change with its probability. -/
def mutateOperatorSometimes (m : Module) (s : MutationSettings) :
    Draw σ (List Outcome × Module) := do
  if (← Draw.unit) < s.operatorChange then
    let (outcome, m) ← m.mutateOperator
    return ([outcome], m)
  else return ([], m)

/-- Applies the connection swap with its probability. -/
def mutateConnectionSometimes (m : Module) (s : MutationSettings) :
    Draw σ (Except Error (List Outcome) × Module) := do
  if (← Draw.unit) < s.connectionSwap then
    let (result, m) ← m.mutateConnection s.swapAttempts
    return (result.map ([·]), m)
  else return (.ok [], m)

/-- Applies each kind of mutation with its own probability. An operator change stays also if the
swap after it fails. -/
def mutate (m : Module) (s : MutationSettings) :
    Draw σ (Except Error (List Outcome) × Module) := do
  let (changes, m) ← m.mutateOperatorSometimes s
  let (swaps, m) ← m.mutateConnectionSometimes s
  return (swaps.map (changes ++ ·), m)

end Module

namespace Circuit

variable {σ : Type} [Source σ]

/-- Mutates the entry. -/
def mutate (c : Circuit) (s : MutationSettings) :
    Draw σ (Except Error (List Outcome) × Circuit) := do
  let (result, m) ← c.entry.mutate s
  return (result, c.withEntry m)

/-- A mutated copy, or none if no mutation applied. -/
def mutated (c : Circuit) (s : MutationSettings) : Draw σ (Except Error (Option Circuit)) := do
  let (result, child) ← c.mutate s
  return result.map fun outcomes => if outcomes.any (·.isApplied) then some child else none

/-- Copies of a circuit, each mutated on its own; the first failure ends them. -/
def mutants (c : Circuit) (s : MutationSettings) :
    (count : Nat) → Draw σ (Except Error (List Circuit))
  | 0 => return .ok []
  | count + 1 => do
    match ← c.mutate s with
    | (.error e, _) => return .error e
    | (.ok _, child) =>
      let rest ← c.mutants s count
      return rest.map (child :: ·)

end Circuit

end ImageCircuit
