import ImageCircuit.Circuit.Basic

/-!
# Graphs of circuits

A plain description of a circuit for other programs: a vertex for each input, output and
computing node, and an edge for each argument and each bound output.

* `Module.graph`: the graph of a module
* `Circuit.graph`: the graphs of all modules
-/

namespace ImageCircuit

/-- What a vertex stands for. -/
inductive VertexKind where
  | input
  | output
  | constant
  | operator
  | call
  deriving DecidableEq, Repr

/-- One vertex of a graph. -/
structure Vertex where
  /-- The position of a node; outputs count on from the number of nodes. -/
  id : Nat
  kind : VertexKind
  label : String
  deriving DecidableEq, Repr

/-- An edge from a value to its user. -/
structure Edge where
  source : Nat
  target : Nat
  deriving DecidableEq, Repr

/-- The vertices and edges of a module. -/
structure ModuleGraph where
  name : String
  vertices : List Vertex
  edges : List Edge
  deriving DecidableEq, Repr

/-- The places after the point in the label of a constant. -/
def labelPlaces : Nat := 2

/-- The kind and the label of a node's vertex; input nodes are shown by their pins. -/
def Node.vertexLabel? (node : Node) : Option (VertexKind × String) :=
  match node.op with
  | .input _ => none
  | .prim .const => some (.constant, Decimal.fixed labelPlaces node.value)
  | .prim op => some (.operator, op.symbol)
  | .call name _ => some (.call, name)
  | .symbol name => some (.call, name)

namespace Module

/-- The vertices of the bound inputs. -/
def inputVertices (m : Module) : List Vertex :=
  m.inputs.filterMap fun pin => pin.index.map fun i => ⟨i, .input, .singleton pin.name⟩

/-- The vertices of the outputs. -/
def outputVertices (m : Module) : List Vertex :=
  m.outputs.zipIdx.map fun (pin, k) => ⟨m.size + k, .output, .singleton pin.name⟩

/-- The vertices of the nodes that are no inputs. -/
def nodeVertices (m : Module) : List Vertex :=
  m.nodes.zipIdx.filterMap fun (node, i) =>
    node.vertexLabel?.map fun (kind, label) => ⟨i, kind, label⟩

/-- The edges of the arguments, by user. -/
def argEdges (m : Module) : List Edge :=
  m.nodes.zipIdx.flatMap fun (node, i) => node.args.map fun arg => ⟨arg, i⟩

/-- The edges of the bound outputs. -/
def outputEdges (m : Module) : List Edge :=
  m.outputs.zipIdx.filterMap fun (pin, k) => pin.index.map fun i => ⟨i, m.size + k⟩

/-- The graph of a module. -/
def graph (m : Module) : ModuleGraph where
  name := m.name
  vertices := m.inputVertices ++ m.outputVertices ++ m.nodeVertices
  edges := m.argEdges ++ m.outputEdges

end Module

/-- The graphs of the modules of a circuit, in order. -/
def Circuit.graph (c : Circuit) : List ModuleGraph :=
  c.modules.map Module.graph

end ImageCircuit
