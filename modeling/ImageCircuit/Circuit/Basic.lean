import ImageCircuit.Circuit.Calls
import ImageCircuit.Module.Printer
import ImageCircuit.Noise

/-!
# Circuits

A circuit is a list of modules with different names. One of them, the entry, has the empty name
and the outputs red, green and blue; the others have one output each and are called.

* `Circuit.compose`: the circuit of some modules
* `Circuit.text`: the texts of the modules, joined by semicolons
-/

namespace ImageCircuit

/-- A set of modules with one entry point. -/
structure Circuit where
  modules : List Module
  /-- The names the modules had when they were put together; a module is looked up by them also
  after it has been renamed. -/
  names : List String
  /-- The noise field of all modules. -/
  noise : Noise
  deriving Repr

/-- The noise field of a circuit for which no other is chosen. -/
def Noise.standard : Noise :=
  .ofSeed 0

namespace Circuit

/-- The name of the entry. -/
def entryName : String := ""

/-- The names of the outputs of the entry. -/
def entryOutputNames : String := "rgb"

/-! ## Composition -/

/-- Checks that there is an entry with the three color outputs. -/
def checkEntry (modules : List Module) : Except Error Unit :=
  match modules.find? (·.name = entryName) with
  | none => .error .noEntry
  | some entry =>
    if entry.outputNames = entryOutputNames then .ok ()
    else .error (.entryOutputs entry.outputNames)

/-- Checks that every module but the entry has one output. -/
def checkOutputs (modules : List Module) : Except Error Unit :=
  match modules.find? fun m => !m.isEntry && m.outputs.length ≠ 1 with
  | some m => .error (.severalOutputs m.name)
  | none => .ok ()

/-- The circuit of some modules, whose words are looked up among them. -/
def compose (modules : List Module) : Except Error Circuit := do
  let names := modules.map (·.name)
  if let some name := repeated? names then throw (.duplicatedModule name)
  checkEntry modules
  checkOutputs modules
  let modules ← resolveCalls modules
  checkCallGraph modules
  return { modules, names, noise := .standard }

/-! ## Views -/

/-- The place of the module that was put in under a name. -/
def moduleIndex? (c : Circuit) (name : String) : Option Nat :=
  c.names.idxOf? name

/-- The module that was put in under a name. -/
def module? (c : Circuit) (name : String) : Option Module :=
  (c.moduleIndex? name).bind (c.modules[·]?)

/-- The place of the entry. -/
def entryIndex (c : Circuit) : Nat :=
  c.names.idxOf entryName

/-- The entry module. -/
def entry (c : Circuit) : Module :=
  c.modules.getD c.entryIndex .empty

/-- The circuit with another module in the place of its entry. -/
def withEntry (c : Circuit) (m : Module) : Circuit :=
  { c with modules := c.modules.set c.entryIndex m }

/-- The circuit over the noise field of a seed. -/
def withNoiseSeed (c : Circuit) (seed : UInt64) : Circuit :=
  if c.noise.seed = seed then c else { c with noise := .ofSeed seed }

/-- The circuit over another noise field. -/
def withNoise (c : Circuit) (noise : Noise) : Circuit :=
  { c with noise }

/-- The texts of the modules, joined by semicolons. -/
def text (c : Circuit) : String :=
  .ofList ((c.modules.map (·.chars)).intersperse [';']).flatten

end Circuit

end ImageCircuit
