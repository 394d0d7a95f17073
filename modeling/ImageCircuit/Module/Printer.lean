import ImageCircuit.Decimal.Layout
import ImageCircuit.Module.Basic

/-!
# The text of a module

* `Module.text`: a module as `(outputs)name(inputs)[node|node|...]`
-/

namespace ImageCircuit

/-- An operation and its arguments, each after a space; a constant shows its literal instead. -/
def Node.chars (node : Node) : List Char :=
  let args :=
    if node.isConstant then [Decimal.textChars node.value] else node.args.map Decimal.digitsOf
  node.op.word.toList ++ args.flatMap (' ' :: ·)

namespace Module

/-- The names of the outputs bound to node `i`. -/
def labels (m : Module) (i : Nat) : List Char :=
  (m.outputs.filter (·.index = some i)).map (·.name)

/-- The text of a node behind its labels and a colon. -/
def segment (m : Module) (node : Node) (i : Nat) : List Char :=
  let labels := m.labels i
  (if labels.isEmpty then [] else labels ++ [':']) ++ node.chars

/-- The characters of a module's text. -/
def chars (m : Module) : List Char :=
  let body := (m.nodes.zipIdx.map fun (node, i) => m.segment node i).intersperse ['|']
  '(' :: m.outputs.map (·.name) ++ ')' :: m.name.toList ++
    '(' :: m.inputs.map (·.name) ++ ')' :: '[' :: body.flatten ++ [']']

/-- The text of a module. -/
def text (m : Module) : String :=
  .ofList m.chars

end Module

end ImageCircuit
