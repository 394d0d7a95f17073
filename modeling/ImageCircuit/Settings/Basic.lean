import ImageCircuit.Decimal.Layout
import ImageCircuit.Error

/-!
# Settings

What a run of the program can be told about mutation, generation and rendering.

* `Settings.validate`: the settings that a run accepts
-/

namespace ImageCircuit

/-- How circuits are mutated. -/
structure MutationSettings where
  /-- The probability of an operator change. -/
  operatorChange : Float
  /-- The probability of a connection swap. -/
  connectionSwap : Float
  /-- How often a connection swap looks for a pair of links. -/
  swapAttempts : Nat
  deriving Repr

/-- How the arguments of generated nodes are chosen. -/
inductive Wiring where
  /-- Inputs come first, and every operator takes arguments among the nodes before it. -/
  | postHoc
  /-- Operators come first, and each node is plugged into an open argument before it. -/
  | socketMatching
  deriving DecidableEq, Repr

/-- How random modules are made. -/
structure GeneratorSettings where
  /-- The number of operator nodes. -/
  numNodes : Nat
  /-- The names of the input pins. -/
  inputs : String
  /-- The names of the output pins. -/
  outputs : String
  wiring : Wiring
  deriving DecidableEq, Repr

/-- How images are rendered. -/
structure RenderSettings where
  /-- Width and height of the image. -/
  size : Nat
  /-- Samples per pixel. -/
  samples : Nat
  /-- The seed of the sample points. -/
  seed : UInt64
  /-- The seed of the noise field. -/
  noiseSeed : UInt64
  deriving DecidableEq, Repr

/-- The settings of a run. -/
structure Settings where
  mutation : MutationSettings
  generator : GeneratorSettings
  render : RenderSettings
  deriving Repr

namespace MutationSettings

/-- Every mutation swaps a connection, and every second one changes an operator. -/
def standard : MutationSettings where
  operatorChange := 0.5
  connectionSwap := 1
  swapAttempts := 3

/-- Checks that a number is a probability. -/
def checkProbability (name : String) (p : Float) : Except Error Unit :=
  if 0 ≤ p && p ≤ 1 then .ok () else .error (.probability name (Decimal.text p))

end MutationSettings

/-- Five operators over the coordinates of a point, for the three color channels. -/
def GeneratorSettings.standard : GeneratorSettings where
  numNodes := 5
  inputs := "xyrt"
  outputs := "rgb"
  wiring := .socketMatching

/-- An image of 500 by 500 pixels with five samples each. -/
def RenderSettings.standard : RenderSettings where
  size := 500
  samples := 5
  seed := 0
  noiseSeed := 0

namespace Settings

/-- The settings that hold where nothing else is said. -/
def standard : Settings where
  mutation := .standard
  generator := .standard
  render := .standard

/-- Refuses settings that no run could follow. -/
def validate (s : Settings) : Except Error Unit := do
  MutationSettings.checkProbability "mutation.operator_change_probability"
    s.mutation.operatorChange
  MutationSettings.checkProbability "mutation.connection_swap_probability"
    s.mutation.connectionSwap
  if s.generator.outputs = "" then throw .noGeneratedOutputs
  if s.render.size = 0 then throw .zeroSize
  if s.render.samples = 0 then throw .zeroSamples

end Settings

end ImageCircuit
