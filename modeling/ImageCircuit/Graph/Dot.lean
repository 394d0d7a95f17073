import ImageCircuit.Graph.Basic

/-!
# Graphs as DOT text

* `Graph.dot`: one subgraph for each module, its vertices named by the module and their number
-/

namespace ImageCircuit

namespace ModuleGraph

/-- The name of a module in DOT text; the entry is called `main`. -/
def dotName (g : ModuleGraph) : String :=
  if g.name = "" then "main" else g.name

/-- The identifier of a vertex. -/
def dotId (g : ModuleGraph) (id : Nat) : String :=
  s!"{g.dotName}_{id}"

/-- The statement of a vertex, with the attributes that follow its label. -/
def dotVertex (g : ModuleGraph) (v : Vertex) (attributes : String) : String :=
  s!"      {g.dotId v.id} [label=\"{v.label}\"{attributes}];\n"

/-- The pins of one kind, placed on one rank. -/
def dotPins (g : ModuleGraph) (kind : VertexKind) : String :=
  let pins := g.vertices.filter (·.kind = kind)
  let lines := pins.map fun v => g.dotVertex v ",shape=square,style=filled"
  "      \x7b rank = same;\n" ++ .join lines ++ "      \x7d\n"

/-- The statement of a computing node; pins have none of their own. -/
def dotNode (g : ModuleGraph) (v : Vertex) : String :=
  match v.kind with
  | .input | .output => ""
  | .constant => g.dotVertex v ",shape=diamond,style=filled,color=\"#99aaff\""
  | .operator | .call => g.dotVertex v ""

/-- The statement of an edge. -/
def dotEdge (g : ModuleGraph) (e : Edge) : String :=
  s!"      {g.dotId e.source} -> {g.dotId e.target};\n"

/-- The subgraph of a module. -/
def dot (g : ModuleGraph) : String :=
  s!"   subgraph {g.dotName} \x7b\n" ++ g.dotPins .input ++ g.dotPins .output ++
    .join (g.vertices.map g.dotNode) ++ .join (g.edges.map g.dotEdge) ++ "   \x7d\n"

end ModuleGraph

/-- The DOT text of the graphs of a circuit. -/
def Graph.dot (graphs : List ModuleGraph) : String :=
  "digraph Circuit \x7b\n" ++ .join (graphs.map ModuleGraph.dot) ++ "\x7d\n"

end ImageCircuit
