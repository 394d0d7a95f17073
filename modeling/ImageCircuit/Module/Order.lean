import ImageCircuit.Module.Reach

/-!
# The order of nodes

* `Module.topologicalSort`: every node before its arguments
* `Module.sortInPlace`: the same as a step that changes the module, or fails and leaves it
* `Module.treeShake`: only nodes that an output depends on
* `Module.normalize`: both

Sorting and shaking are relayouts: a list names the old positions in their new order, and
arguments and pins follow their nodes.
-/

namespace ImageCircuit

/-- Applies a step up to `n` times, stopping early where it changes nothing. -/
def settle {α : Type} [BEq α] (step : α → α) : Nat → α → α
  | 0, x => x
  | n + 1, x =>
    let y := step x
    if y == x then x else settle step n y

namespace Module

/-! ## Relayouts -/

/-- The node with its arguments moved to their new positions. -/
def moveArgs (order : List Nat) (node : Node) : Node :=
  { node with args := node.args.map fun arg => (order.idxOf? arg).getD arg }

/-- The pin with its node moved; a pin whose node is dropped becomes unbound. -/
def movePin (order : List Nat) (pin : Pin) : Pin :=
  { pin with index := pin.index.bind order.idxOf? }

/-- The module with the nodes at the given positions, in that order. -/
def relayout (m : Module) (order : List Nat) : Module :=
  { m with
    nodes := order.filterMap fun old => m.nodes[old]?.map (moveArgs order)
    inputs := m.inputs.map (movePin order)
    outputs := m.outputs.map (movePin order) }

/-! ## Ranks -/

/-- The rank over arguments of the given ranks: one more than the greatest, 0 without arguments,
none while an argument has none. -/
def rankOver : List (Option Nat) → Option Nat
  | [] => some 0
  | rank :: rest => do
    let first ← rank
    let others ← rankOver rest
    some (max (first + 1) others)

/-- The rank of node `i`, where one has been found. -/
def rankAt (ranks : Array (Option Nat)) (i : Nat) : Option Nat :=
  ranks.getD i none

/-- Ranks every node whose arguments are ranked. -/
def rankStep (m : Module) (ranks : Array (Option Nat)) : Array (Option Nat) :=
  (m.nodes.map fun node => rankOver (node.args.map (rankAt ranks))).toArray

/-- The ranks of all nodes that depend on no cycle: no path of arguments among `n` nodes without a
cycle is longer than `n` nodes. -/
def finalRanks (m : Module) : Array (Option Nat) :=
  settle m.rankStep m.size (.replicate m.size none)

/-- Whether ranking meets an argument past the end: it is the first argument of its node without a
rank. -/
def meetsBadIndex (m : Module) (ranks : Array (Option Nat)) : Bool :=
  m.nodes.any fun node =>
    (node.args.find? fun arg => (rankAt ranks arg).isNone).any (m.size ≤ ·)

/-- The length of the longest path of arguments below each node. -/
def ranks (m : Module) : Except Error (List Nat) :=
  let ranks := m.finalRanks
  if m.meetsBadIndex ranks then .error .badIndex
  else if none ∈ ranks then .error (.cycle m.name (ranks.count none))
  else .ok (ranks.toList.filterMap id)

/-! ## Sorting and shaking -/

/-- The positions by descending rank, those of equal rank in their old order. -/
def rankOrder (ranks : List Nat) : List Nat :=
  (List.range ranks.length).reverse.flatMap fun rank =>
    (ranks.zipIdx.filter fun (r, _) => r = rank).map (·.2)

/-- The nodes by descending rank, so that every argument stands after its users. -/
def topologicalSort (m : Module) : Except Error Module := do
  let ranks ← m.ranks
  if m.pinsInRange then return m.relayout (rankOrder ranks) else throw .badIndex

/-- Sorting in place. All ranks are found before anything is written. -/
def sortInPlace : ExceptT Error (StateM Module) Unit := do
  let m ← get
  let ranks ← MonadExcept.ofExcept m.ranks
  if m.pinsInRange then set (m.relayout (rankOrder ranks)) else throw .badIndex

/-- The nodes that the roots depend on, in their old order. -/
def treeShakeFrom (m : Module) (roots : List Nat) : Except Error Module :=
  if m.nodes.isEmpty then .ok m
  else do
    let marks ← m.reachableFrom roots
    if m.pinsInRange then
      return m.relayout ((List.range m.size).filter fun i => marks.getD i false)
    else throw .badIndex

/-- The nodes that the outputs depend on. -/
def treeShake (m : Module) : Except Error Module :=
  m.treeShakeFrom m.outputIndices

/-- The module sorted and then shaken. -/
def normalize (m : Module) : Except Error Module := do
  let m ← m.topologicalSort
  m.treeShake

end Module

end ImageCircuit
