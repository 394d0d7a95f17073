import ImageCircuit.Circuit.Basic
import ImageCircuit.Module.Order
import ImageCircuit.Module.Parser

/-!
# Reading a circuit

* `Circuit.read`: the circuit that a text of modules joined by semicolons describes
-/

namespace ImageCircuit.Circuit

/-- Reads one module and brings it into normal form. -/
def readPart (part : List Char) : Except Error Module := do
  let m ← Module.parseChars part
  m.normalize

/-- The circuit that a text describes. -/
def read (text : String) : Except Error Circuit := do
  let modules ← (Text.splitAll ';' text.toList).mapM readPart
  compose modules

end ImageCircuit.Circuit
