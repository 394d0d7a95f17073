import ImageCircuit.Json.Parser
import ImageCircuit.Json.Printer
import ImageCircuit.Json.Record
import ImageCircuit.Settings.Basic

/-!
# Settings as JSON

* `Settings.parse`: the settings that a document describes; what it leaves out has its standard
  value
* `Settings.text`: the document of some settings
-/

namespace ImageCircuit

open Json (record? field?)

/-- The word for a wiring. -/
def Wiring.word : Wiring → String
  | postHoc => "post_hoc"
  | socketMatching => "socket_matching"

/-- The wiring with this word. -/
def Wiring.ofWord? (word : String) : Option Wiring :=
  [postHoc, socketMatching].find? (·.word = word)

/-- A wiring is its word, or an object with its word as the only key and null as the value. -/
def Wiring.ofJson? : Json → Option Wiring
  | .string (some word) => ofWord? word
  | .object [(some word, .null)] => ofWord? word
  | _ => none

namespace MutationSettings

/-- The keys of mutation settings, in order. -/
def fieldNames : List String :=
  ["operator_change_probability", "connection_swap_probability", "swap_attempts"]

/-- The mutation settings of a record. -/
def ofJson? (j : Json) : Option MutationSettings := do
  let fields ← record? fieldNames j
  let operatorChange ←
    field? fields "operator_change_probability" Json.float? standard.operatorChange
  let connectionSwap ←
    field? fields "connection_swap_probability" Json.float? standard.connectionSwap
  let swapAttempts ← field? fields "swap_attempts" Json.nat? standard.swapAttempts
  some { operatorChange, connectionSwap, swapAttempts }

/-- The record of mutation settings. -/
def toJson (s : MutationSettings) : Json :=
  .fields [("operator_change_probability", .ofFloat s.operatorChange),
    ("connection_swap_probability", .ofFloat s.connectionSwap),
    ("swap_attempts", .ofNat s.swapAttempts)]

end MutationSettings

namespace GeneratorSettings

/-- The keys of generator settings, in order. -/
def fieldNames : List String :=
  ["num_nodes", "inputs", "outputs", "wiring"]

/-- The generator settings of a record. -/
def ofJson? (j : Json) : Option GeneratorSettings := do
  let fields ← record? fieldNames j
  let numNodes ← field? fields "num_nodes" Json.nat? standard.numNodes
  let inputs ← field? fields "inputs" Json.text? standard.inputs
  let outputs ← field? fields "outputs" Json.text? standard.outputs
  let wiring ← field? fields "wiring" Wiring.ofJson? standard.wiring
  some { numNodes, inputs, outputs, wiring }

/-- The record of generator settings. -/
def toJson (s : GeneratorSettings) : Json :=
  .fields [("num_nodes", .ofNat s.numNodes), ("inputs", .text s.inputs),
    ("outputs", .text s.outputs), ("wiring", .text s.wiring.word)]

end GeneratorSettings

namespace RenderSettings

/-- The keys of render settings, in order. -/
def fieldNames : List String :=
  ["size", "samples", "seed", "noise_seed"]

/-- The render settings of a record. -/
def ofJson? (j : Json) : Option RenderSettings := do
  let fields ← record? fieldNames j
  let size ← field? fields "size" Json.nat? standard.size
  let samples ← field? fields "samples" Json.nat? standard.samples
  let seed ← field? fields "seed" Json.word? standard.seed
  let noiseSeed ← field? fields "noise_seed" Json.word? standard.noiseSeed
  some { size, samples, seed, noiseSeed }

/-- The record of render settings. -/
def toJson (s : RenderSettings) : Json :=
  .fields [("size", .ofNat s.size), ("samples", .ofNat s.samples), ("seed", .ofNat s.seed.toNat),
    ("noise_seed", .ofNat s.noiseSeed.toNat)]

end RenderSettings

namespace Settings

/-- The keys of settings, in order. -/
def fieldNames : List String :=
  ["mutation", "generator", "render"]

/-- The settings of a record. -/
def ofJson? (j : Json) : Option Settings := do
  let fields ← record? fieldNames j
  let mutation ← field? fields "mutation" MutationSettings.ofJson? .standard
  let generator ← field? fields "generator" GeneratorSettings.ofJson? .standard
  let render ← field? fields "render" RenderSettings.ofJson? .standard
  some { mutation, generator, render }

/-- The record of settings. -/
def toJson (s : Settings) : Json :=
  .fields [("mutation", s.mutation.toJson), ("generator", s.generator.toJson),
    ("render", s.render.toJson)]

/-- The settings that a document describes, if a run accepts them. -/
def parse (document : String) : Except Error Settings := do
  let some s := (Json.parse? document).bind ofJson? | throw .undecodable
  s.validate
  return s

/-- The document of some settings. -/
def text (s : Settings) : String :=
  s.toJson.compact

end Settings

end ImageCircuit
