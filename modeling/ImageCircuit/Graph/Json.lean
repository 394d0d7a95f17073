import ImageCircuit.Graph.Basic
import ImageCircuit.Json.Printer

/-!
# Graphs as JSON

* `Graph.json`: the records of all modules, indented
-/

namespace ImageCircuit

/-- The word for a kind of vertex. -/
def VertexKind.word : VertexKind → String
  | input => "input"
  | output => "output"
  | constant => "constant"
  | operator => "operator"
  | call => "call"

/-- The record of a vertex. -/
def Vertex.toJson (v : Vertex) : Json :=
  .fields [("id", .number (.ofNat v.id)), ("kind", .text v.kind.word), ("label", .text v.label)]

/-- The record of an edge. -/
def Edge.toJson (e : Edge) : Json :=
  .fields [("from", .number (.ofNat e.source)), ("to", .number (.ofNat e.target))]

/-- The record of a module. -/
def ModuleGraph.toJson (g : ModuleGraph) : Json :=
  .fields [("name", .text g.name), ("nodes", .array (g.vertices.map Vertex.toJson)),
    ("edges", .array (g.edges.map Edge.toJson))]

/-- The indented JSON text of the graphs of a circuit. -/
def Graph.json (graphs : List ModuleGraph) : String :=
  (Json.fields [("modules", .array (graphs.map ModuleGraph.toJson))]).pretty

end ImageCircuit
