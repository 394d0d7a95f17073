import ImageCircuit.Circuit.Basic
import ImageCircuit.Module.Order
import ImageCircuit.Settings.Basic

/-!
# Random modules and circuits

* `Module.drawPostHoc`: operators that take arguments among the nodes before them
* `Module.drawSocketMatching`: nodes plugged one by one into open arguments and outputs
* `Module.draw`: a module as the settings ask for it
* `Circuit.draw`: a circuit of one random module

Neither wiring can close a cycle, and the result is in normal form.
-/

namespace ImageCircuit

/-- A computation that draws and may fail; draws made before a failure stay made. -/
abbrev TryDraw (σ : Type) := ExceptT Error (Draw σ)

namespace Module

variable {σ : Type} [Source σ]

/-! ## Inputs first -/

/-- A random operator with distinct random arguments among `emitted` nodes. -/
def drawNode (emitted : Nat) : Draw σ Node := do
  match (← Draw.choose (Operator.upToArity emitted)).getD .const with
  | .const => return .constant (← Draw.unit)
  | op => return .ofOp (.prim op) (← Draw.sample emitted op.arity)

/-- Appends a number of random operators. -/
def drawNodes : (count : Nat) → List Node → Draw σ (List Node)
  | 0, nodes => return nodes
  | count + 1, nodes => do
    let node ← drawNode nodes.length
    drawNodes count (nodes ++ [node])

/-- A random number below `n`; there is none below 0. -/
def drawBelow (n : Nat) : Draw σ Nat := do
  match n with
  | 0 => return 0
  | n + 1 => return (← Draw.wideUpTo n).val

/-- Binds a pin to a random node. -/
def drawPin (size : Nat) (pin : Pin) : Draw σ Pin := do
  let i ← drawBelow size
  return { pin with index := some i }

/-- A random module: the inputs, then operators with arguments among the nodes before them; the
outputs are bound last. -/
def drawPostHoc (inputs outputs : String) (numNodes : Nat) : TryDraw σ Module := do
  let m := ofPins "" inputs outputs
  let nodes ← (drawNodes numNodes (inputs.toList.map fun c => .ofOp (.input c) []) : Draw σ _)
  if nodes.isEmpty then throw .nothingToGenerate
  let outputs ← (m.outputs.mapM (drawPin nodes.length) : Draw σ _)
  let (result, m) := { m with nodes, outputs }.reconstructInputs
  ExceptT.mk (pure result)
  ExceptT.mk (pure m.normalize)

/-! ## Inputs last -/

/-- A module on its way: the arguments of its nodes stand in slots, which are open at first. -/
structure Draft where
  nodes : List Node
  slots : List (List (Option Nat))
  outputs : List Pin
  deriving Repr

/-- A random operator without arguments; a constant has its literal. -/
def drawOperator (fixed : Option Operator) : Draw σ (Node × Operator) := do
  let op ← match fixed with
    | some op => pure op
    | none => do pure ((← Draw.choose Operator.all).getD .const)
  let value ← if op = .const then Draw.unit else pure 0
  return ({ Node.ofOp (.prim op) [] with value }, op)

/-- A number of random operators. Without inputs the last one is a constant, since it will have no
node after it. -/
def drawOperators (hasInputs : Bool) : (count : Nat) → Draw σ (List (Node × Operator))
  | 0 => return []
  | count + 1 => do
    let first ← drawOperator (if !hasInputs && count = 0 then some .const else none)
    let rest ← drawOperators hasInputs count
    return first :: rest

/-- The open slots of the first `n` nodes, in order. -/
def Draft.sockets (d : Draft) (n : Nat) : List Link :=
  (List.range n).flatMap fun node =>
    let slots := d.slots.getD node []
    ((List.range slots.length).filter fun slot => slots[slot]? = some none).map fun slot =>
      ⟨node, slot⟩

/-- The places of the outputs that are not bound. -/
def Draft.freeOutputs (d : Draft) : List Nat :=
  (List.range d.outputs.length).filter fun k => (d.outputs[k]?.bind (·.index)).isNone

/-- Fills a slot with node `i`. -/
def Draft.fill (d : Draft) (l : Link) (i : Nat) : Draft :=
  { d with slots := d.slots.modify l.node (·.set l.slot (some i)) }

/-- Binds output `k` to node `i`. -/
def Draft.bind (d : Draft) (k i : Nat) : Draft :=
  { d with outputs := d.outputs.modify k fun pin => { pin with index := some i } }

/-- Plugs node `i` into a random open slot of an earlier node or a random free output, if there is
one. -/
def Draft.plug (d : Draft) (i : Nat) : Draw σ Draft := do
  let sockets := d.sockets i
  let free := d.freeOutputs
  match sockets.length + free.length with
  | 0 => return d
  | choices + 1 =>
    let r ← Draw.wideUpTo choices
    match sockets[r.val]? with
    | some socket => return d.fill socket i
    | none => return d.bind (free.getD (r.val - sockets.length) 0) i

/-- Fills what is open in the slots of node `i` with random later nodes. -/
def fillSlots (size i : Nat) : List (Option Nat) → TryDraw σ (List Nat)
  | [] => return []
  | some j :: rest => return j :: (← fillSlots size i rest)
  | none :: rest => do
    if size ≤ i + 1 then throw (.openArgument i)
    let j ← (drawBelow (size - (i + 1)) : Draw σ Nat)
    return (i + 1 + j) :: (← fillSlots size i rest)

/-- Binds a pin to a random node unless it is bound already. -/
def drawFreePin (size : Nat) (pin : Pin) : Draw σ Pin :=
  if pin.index.isSome then pure pin else drawPin size pin

/-- The nodes of a draft with arguments for all slots. -/
def Draft.close (d : Draft) (size : Nat) : TryDraw σ (List Node) := do
  let args ← d.slots.zipIdx.mapM fun (slots, i) => fillSlots size i slots
  return d.nodes.zipWith (fun node args => { node with args }) args

/-- A random module: operators, then the inputs. Each node in turn is plugged into an open slot of
an earlier node or a free output; slots that stay open get random later nodes. -/
def drawSocketMatching (inputs outputs : String) (numNodes : Nat) : TryDraw σ Module := do
  let pins := ofPins "" inputs outputs
  let operators ← (drawOperators (inputs ≠ "") numNodes : Draw σ _)
  let inputNodes := inputs.toList.map fun c => Node.ofOp (.input c) []
  let nodes := operators.map (·.1) ++ inputNodes
  if nodes.isEmpty then throw .nothingToGenerate
  let slots := operators.map (fun (_, op) => List.replicate op.arity none) ++
    inputNodes.map fun _ => []
  let draft : Draft := { nodes, slots, outputs := pins.outputs }
  let draft ← ((List.range nodes.length).foldlM Draft.plug draft : Draw σ _)
  let nodes ← draft.close nodes.length
  let outputs ← (draft.outputs.mapM (drawFreePin nodes.length) : Draw σ _)
  let inputs := pins.inputs.zipIdx.map fun (pin, k) =>
    { pin with index := some (numNodes + k) }
  ExceptT.mk (pure { pins with nodes, inputs, outputs }.normalize)

/-! ## As the settings ask -/

/-- A random module with the wiring, pins and size of the settings. -/
def draw (s : GeneratorSettings) (name : String) : TryDraw σ Module := do
  let m ← match s.wiring with
    | .postHoc => drawPostHoc s.inputs s.outputs s.numNodes
    | .socketMatching => drawSocketMatching s.inputs s.outputs s.numNodes
  return { m with name }

end Module

/-- A circuit of one random module. -/
def Circuit.draw {σ : Type} [Source σ] (s : GeneratorSettings) : TryDraw σ Circuit := do
  let m ← Module.draw s entryName
  ExceptT.mk (pure (compose [m]))

end ImageCircuit
