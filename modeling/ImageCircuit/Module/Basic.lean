import ImageCircuit.Error
import ImageCircuit.Operator.Basic

/-!
# Modules

A module is one function of a program: a list of nodes that name their arguments by position, and
pins that name the nodes which stand for its inputs and outputs.

* `Module.isSorted`: every argument stands after its user
* `Module.reconstructInputs`: binds the input pins to the nodes that carry their names
-/

namespace ImageCircuit

/-- What a node computes. -/
inductive Op where
  /-- A primitive function; a constant keeps its literal in the value of the node. -/
  | prim (op : Operator)
  /-- The input pin of this name. -/
  | input (name : Char)
  /-- A word that has not been looked up among the modules of a circuit. -/
  | symbol (name : String)
  /-- A call of the module at this place of the circuit. -/
  | call (module : String) (index : Nat)
  deriving DecidableEq, Repr

/-- The word for an operation in program text. -/
def Op.word : Op → String
  | prim op => op.symbol
  | input name => .singleton name
  | symbol name => name
  | call name _ => name

/-- The primitive function, if the operation is one. -/
def Op.operator? : Op → Option Operator
  | prim op => some op
  | _ => none

/-- The place of the called module, if the operation is a call. -/
def Op.callee? : Op → Option Nat
  | call _ index => some index
  | _ => none

/-- One vertex of a module. -/
structure Node where
  op : Op
  /-- The positions of the nodes it reads. -/
  args : List Nat
  /-- The literal of a constant, and what evaluation found for every other node. -/
  value : Float
  /-- Whether the value has been found since the inputs were set. -/
  computed : Bool
  deriving Repr

namespace Node

/-- A node that has not been evaluated. -/
def ofOp (op : Op) (args : List Nat) : Node where
  op
  args
  value := 0
  computed := false

/-- A constant with its literal. -/
def constant (value : Float) : Node :=
  { ofOp (.prim .const) [] with value }

/-- Whether a node is a constant. -/
def isConstant (node : Node) : Bool :=
  node.op = .prim .const

/-- Whether a node calls a module. -/
def isCall (node : Node) : Bool :=
  node.op.callee?.isSome

end Node

/-- A name for the node that stands for an input or an output. -/
structure Pin where
  name : Char
  /-- The position of the node; an unbound pin has none. -/
  index : Option Nat
  deriving DecidableEq, Repr

/-- A pin bound to no node. -/
def Pin.unbound (name : Char) : Pin where
  name
  index := none

/-- One function of a circuit. The entry of a circuit has the empty name. -/
structure Module where
  name : String
  nodes : List Node
  inputs : List Pin
  outputs : List Pin
  deriving Repr

namespace Module

/-- A module without nodes, its pins named by the characters of two texts. -/
def ofPins (name inputs outputs : String) : Module where
  name
  nodes := []
  inputs := inputs.toList.map Pin.unbound
  outputs := outputs.toList.map Pin.unbound

/-- The module without name, nodes and pins. -/
def empty : Module where
  name := ""
  nodes := []
  inputs := []
  outputs := []

instance : Inhabited Module := ⟨empty⟩

/-! ## Views -/

/-- The number of nodes. -/
def size (m : Module) : Nat :=
  m.nodes.length

/-- Whether the module has the name of an entry. -/
def isEntry (m : Module) : Bool :=
  m.name = ""

/-- The positions that the bound outputs name, in order. -/
def outputIndices (m : Module) : List Nat :=
  m.outputs.filterMap (·.index)

/-- The names of the outputs, in order. -/
def outputNames (m : Module) : String :=
  .ofList (m.outputs.map (·.name))

/-- The names of the inputs, in order. -/
def inputNames (m : Module) : String :=
  .ofList (m.inputs.map (·.name))

/-- The place of the first pin with a name. -/
def pinPosition? (pins : List Pin) (name : Char) : Option Nat :=
  pins.findIdx? (·.name = name)

/-- The place of the input with a name. -/
def inputPosition? (m : Module) (name : Char) : Option Nat :=
  pinPosition? m.inputs name

/-- The place of the output with a name. -/
def outputPosition? (m : Module) (name : Char) : Option Nat :=
  pinPosition? m.outputs name

/-- Whether an input pin is bound to node `n`. -/
def isInput (m : Module) (n : Nat) : Bool :=
  m.inputs.any (·.index = some n)

/-- The arguments of node `i`; a position past the end has none. -/
def argsOf (m : Module) (i : Nat) : List Nat :=
  (m.nodes[i]?.map (·.args)).getD []

/-- Every argument of every node, in order. -/
def allArgs (m : Module) : List Nat :=
  m.nodes.flatMap (·.args)

/-- The number of arguments in the module. -/
def edgeCount (m : Module) : Nat :=
  m.allArgs.length

/-- The argument slots of the nodes that satisfy `keep`, in order. -/
def links (m : Module) (keep : Nat → Bool) : List Link :=
  (List.range m.size).flatMap fun node =>
    if keep node then (List.range (m.argsOf node).length).map fun slot => ⟨node, slot⟩ else []

/-- Whether every argument stands after its user. -/
def isSorted (m : Module) : Bool :=
  (List.range m.size).all fun i => (m.argsOf i).all (i < ·)

/-- Whether every bound pin names a node. -/
def pinsInRange (m : Module) : Bool :=
  (m.inputs ++ m.outputs).all fun pin => pin.index.all (· < m.size)

/-- Whether every argument names a node. -/
def argsInRange (m : Module) : Bool :=
  m.allArgs.all (· < m.size)

/-! ## Input pins and input nodes -/

/-- The positions of the nodes that stand for the input `name`. -/
def inputNodes (nodes : List Node) (name : Char) : List Nat :=
  (nodes.zipIdx.filter fun (node, _) => node.op = .input name).map (·.2)

/-- Binds each pin to the only node that carries its name. The second node with a name stops the
search; the pins from there on keep their places. -/
def rebind (nodes : List Node) : List Pin → Except Error Unit × List Pin
  | [] => (.ok (), [])
  | pin :: rest =>
    match inputNodes nodes pin.name with
    | [] =>
      let (result, rest) := rebind nodes rest
      (result, { pin with index := none } :: rest)
    | [i] =>
      let (result, rest) := rebind nodes rest
      (result, { pin with index := some i } :: rest)
    | i :: _ :: _ => (.error (.duplicatedInput pin.name), { pin with index := some i } :: rest)

/-- Binds every input pin to the node that carries its name. -/
def reconstructInputs (m : Module) : Except Error Unit × Module :=
  let (result, inputs) := rebind m.nodes m.inputs
  (result, { m with inputs })

end Module

end ImageCircuit
