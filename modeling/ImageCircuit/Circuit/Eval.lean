import ImageCircuit.Circuit.Basic
import ImageCircuit.Module.Eval

/-!
# Evaluating a circuit

* `Circuit.evalModule`: the outputs of one module
* `Circuit.eval`: the outputs of the entry
* `Circuit.call`: the first output of one module

While a module is evaluated, an empty module stands in its place, so a module that calls itself
gets no output. Calls are therefore nested no deeper than there are modules.
-/

namespace ImageCircuit

/-- The answer to a call of one of some modules, which keep the values found on the way. -/
abbrev Answer (α : Type) := Except Error α × List Module

/-- Evaluates the module at a place, the calls in it answered by `call`. -/
def evalAt (noise : Noise) (call : Nat → List Float → List Module → Answer Float) (index : Nat)
    (values : List Float) (modules : List Module) : Answer (List Float) :=
  match modules[index]? with
  | none => (.error (.noModule index), modules)
  | some m =>
    let ctx : Context (List Module) := { noise := noise.at, call }
    let (result, m, modules) := m.eval ctx values (modules.set index .empty)
    (result, modules.set index m)

/-- The first output of the module at a place. -/
def firstOutput (index : Nat) : List Float → Except Error Float
  | [] => .error (.noOutput index)
  | value :: _ => .ok value

/-- Answers a call below which calls are nested up to a depth. Beyond it every module is under
evaluation already, so that an empty module stands in its place. -/
def callWithin (noise : Noise) : (depth : Nat) → Nat → List Float → List Module → Answer Float
  | 0, index, _, modules =>
    (.error (if index < modules.length then .noOutput index else .noModule index), modules)
  | depth + 1, index, values, modules =>
    let (result, modules) := evalAt noise (callWithin noise depth) index values modules
    (result.bind (firstOutput index), modules)

namespace Circuit

/-- The outputs of the module at a place, and the circuit with the values found. -/
def evalModule (c : Circuit) (index : Nat) (values : List Float) :
    Except Error (List Float) × Circuit :=
  let (result, modules) :=
    evalAt c.noise (callWithin c.noise c.modules.length) index values c.modules
  (result, { c with modules })

/-- The outputs of the entry, and the circuit with the values found. -/
def eval (c : Circuit) (values : List Float) : Except Error (List Float) × Circuit :=
  c.evalModule c.entryIndex values

/-- The first output of the module at a place, and the circuit with the values found. -/
def call (c : Circuit) (index : Nat) (values : List Float) : Except Error Float × Circuit :=
  let (result, c) := c.evalModule index values
  (result.bind (firstOutput index), c)

end Circuit

end ImageCircuit
