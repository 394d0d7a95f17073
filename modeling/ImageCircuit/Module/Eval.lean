import ImageCircuit.Module.Reach
import ImageCircuit.Noise
import ImageCircuit.Operator.Formula

/-!
# Evaluating a module

* `Module.setInputs`: the values of the input pins
* `Module.evalNodes`: the values of what some roots depend on
* `Module.eval`: the values of the outputs

The nodes are scanned once from the last to the first, so in a sorted module every argument is
found before its users. Values stay in the nodes, also after an error.
-/

namespace ImageCircuit

/-- What evaluation asks of its surroundings: the noise field, and the answers to calls of other
modules, which may change the surroundings. -/
structure Context (σ : Type) where
  noise : Float → Float → Float
  call : (index : Nat) → (args : List Float) → σ → Except Error Float × σ

/-- Surroundings without other modules. -/
def Context.standalone (noise : Noise) : Context Unit where
  noise := noise.at
  call index _ := fun s => (.error (.callOutside index), s)

namespace Module

/-- The stored value of node `i`. -/
def valueAt (nodes : List Node) (i : Nat) : Float :=
  (nodes[i]?.map (·.value)).getD 0

/-- Stores the value of node `i`. -/
def store (nodes : List Node) (i : Nat) (value : Float) : List Node :=
  nodes.modify i fun node => { node with value, computed := true }

/-- Stores an input value in each bound pin's node; a pin without a value reads 0. -/
def storeInputs (nodes : List Node) : List Pin → List Float → List Node
  | [], _ => nodes
  | pin :: pins, values =>
    let nodes := match pin.index with
      | some i => store nodes i (values.headD 0)
      | none => nodes
    storeInputs nodes pins values.tail

/-- Sets the input values by the position of their pins and forgets what was computed. -/
def setInputs (m : Module) (values : List Float) : Except Error Module :=
  if m.inputs.all fun pin => pin.index.all (· < m.size) then
    let nodes := m.nodes.map fun node => { node with computed := false }
    .ok { m with nodes := storeInputs nodes m.inputs values }
  else .error .badIndex

section
variable {σ : Type}

/-- The value of a node over the stored values of its arguments. -/
def nodeValue (ctx : Context σ) (nodes : List Node) (node : Node) (s : σ) :
    Except Error Float × σ :=
  match node.op with
  | .prim .const | .input _ => (.ok node.value, s)
  | .prim op =>
    if node.args.length ≤ Operator.maxArity then
      (.ok (op.apply ctx.noise (node.args.map (valueAt nodes))), s)
    else (.error .tooManyArguments, s)
  | .symbol name => (.error (.unresolved name), s)
  | .call _ index => ctx.call index (node.args.map (valueAt nodes)) s

/-- Computes the live nodes below position `i` from the last to the first, each unless it is
computed already. -/
def scan (ctx : Context σ) (live : List Bool) :
    (i : Nat) → List Node → σ → Except Error Unit × List Node × σ
  | 0, nodes, s => (.ok (), nodes, s)
  | i + 1, nodes, s =>
    match nodes[i]? with
    | none => scan ctx live i nodes s
    | some node =>
      if !live.getD i false || node.computed then scan ctx live i nodes s
      else
        match nodeValue ctx nodes node s with
        | (.error e, s) => (.error e, nodes, s)
        | (.ok value, s) => scan ctx live i (store nodes i value) s

/-- Computes every node that some root depends on. -/
def evalNodes (m : Module) (ctx : Context σ) (roots : List Nat) (s : σ) :
    Except Error Unit × Module × σ :=
  match m.reachableFrom roots with
  | .error e => (.error e, m, s)
  | .ok live =>
    let (result, nodes, s) := scan ctx live m.size m.nodes s
    (result, { m with nodes }, s)

/-- The values of the outputs; an unbound output reads 0. -/
def outputValues (m : Module) : Except Error (List Float) :=
  if m.outputs.all fun pin => pin.index.all (· < m.size) then
    .ok (m.outputs.map fun pin => (pin.index.map (valueAt m.nodes)).getD 0)
  else .error .badIndex

/-- The values of the outputs for some values of the inputs. -/
def eval (m : Module) (ctx : Context σ) (values : List Float) (s : σ) :
    Except Error (List Float) × Module × σ :=
  match m.setInputs values with
  | .error e => (.error e, m, s)
  | .ok m =>
    match m.evalNodes ctx m.outputIndices s with
    | (.error e, m, s) => (.error e, m, s)
    | (.ok (), m, s) => (m.outputValues, m, s)

end

end Module

end ImageCircuit
