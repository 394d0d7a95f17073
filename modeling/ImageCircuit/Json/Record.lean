import ImageCircuit.Json.Basic
import ImageCircuit.Repeated

/-!
# Records in JSON

* `Json.record?`: the fields of a record, given by name or by place
* `Json.nat?`, `Json.float?`, `Json.text?`: values of one type
-/

namespace ImageCircuit.Json

/-- The fields of a record with the given names, as far as a value has them. An object may have
other members, but must not repeat a field; an array lists the first fields in order. -/
def record? (names : List String) : Json → Option (List (String × Json))
  | .array items => if items.length ≤ names.length then some (names.zip items) else none
  | .object members => do
    let members ← members.mapM fun (key, value) => key.map fun key => (key, value)
    let known := members.filter fun (key, _) => names.contains key
    if (repeated? (known.map (·.1))).isSome then none else some known
  | _ => none

/-- The value of a field, read with `read`; a field that is missing has its standard value. -/
def field? {α : Type} (fields : List (String × Json)) (name : String) (read : Json → Option α)
    (standard : α) : Option α :=
  match fields.lookup name with
  | none => some standard
  | some j => read j

/-- A natural number below `2 ^ 64`. -/
def nat? : Json → Option Nat
  | .number n => n.toNat?
  | _ => none

/-- A 64-bit number. -/
def word? (j : Json) : Option UInt64 :=
  j.nat?.map .ofNat

/-- A double, from a number with or without a point. -/
def float? : Json → Option Float
  | .number n => n.toFloat?
  | _ => none

/-- A string. -/
def text? : Json → Option String
  | .string s => s
  | _ => none

/-- The items of an array. -/
def items? : Json → Option (List Json)
  | .array items => some items
  | _ => none

/-- The literal of a double; one without a literal is null. -/
def ofFloat (x : Float) : Json :=
  ((Number.ofFloat? x).map number).getD null

/-- The literal of a natural number. -/
def ofNat (n : Nat) : Json :=
  .number (.ofNat n)

end ImageCircuit.Json
