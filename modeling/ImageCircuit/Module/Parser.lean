import ImageCircuit.Decimal.Read
import ImageCircuit.Module.Basic
import ImageCircuit.Repeated
import ImageCircuit.Text.Split

/-!
# Reading a module

* `Module.parse`: the module that a text `(outputs)name(inputs)[node|node|...]` describes

Nodes are read from left to right. Reading a node binds the outputs that label it and the input
that it stands for, so each pin is bound at most once. Arguments may point anywhere; that they
name nodes is checked at the end, when the number of nodes is known.
-/

namespace ImageCircuit

open Text (trim splitOnce splitAll words isBlank)

/-- The parts of `(outputs)name(inputs)[body]`. -/
structure Shape where
  outputs : List Char
  name : List Char
  inputs : List Char
  body : List Char
  deriving DecidableEq, Repr

/-- What stands between the brackets that a text starts and ends with. -/
def bracketed? : List Char → Option (List Char)
  | '[' :: rest => if rest.getLast? = some ']' then some rest.dropLast else none
  | _ => none

/-- Cuts a text at the first brackets that fit. -/
def Shape.ofChars? : List Char → Option Shape
  | '(' :: rest => do
    let (outputs, rest) ← splitOnce ')' rest
    let (name, rest) ← splitOnce '(' rest
    let (inputs, rest) ← splitOnce ')' rest
    let body ← bracketed? rest
    some { outputs, name := trim name, inputs, body }
  | _ => none

/-- Reads the arguments of node `i`. -/
def readArgs (i : Nat) (args : List (List Char)) : Except Error (List Nat) :=
  args.mapM fun word =>
    match Decimal.readCount word with
    | some n => .ok n
    | none => .error (.badArgument i (.ofList word))

/-- The labels and the body of the text of node `i`. -/
def splitLabels (i : Nat) (segment : List Char) : Except Error (List Char × List Char) :=
  match splitAll ':' segment with
  | [body] => .ok ([], body)
  | [labels, body] => .ok (trim labels, body)
  | _ => .error (.severalColons i)

/-- Refuses words after the end of node `i`. -/
def expectEnd (i : Nat) : List (List Char) → Except Error Unit
  | [] => .ok ()
  | word :: _ => .error (.unexpectedWord i (.ofList word))

namespace Module

/-- Binds pin `k` of a list to node `i`. -/
def bindPin (pins : List Pin) (k i : Nat) : List Pin :=
  pins.modify k fun pin => { pin with index := some i }

/-- Whether pin `k` of a list is bound. -/
def isBound (pins : List Pin) (k : Nat) : Bool :=
  (pins[k]?.bind (·.index)).isSome

/-- Binds the output `name` to node `i`. -/
def bindOutput (i : Nat) (m : Module) (name : Char) : Except Error Module :=
  match m.outputPosition? name with
  | none => .error (.unknownOutput name)
  | some k =>
    if isBound m.outputs k then .error (.duplicatedOutput name)
    else .ok { m with outputs := bindPin m.outputs k i }

/-- The place of the input that a word of one character names. -/
def inputNamed? (m : Module) : List Char → Option (Char × Nat)
  | [c] => (m.inputPosition? c).map fun k => (c, k)
  | _ => none

/-- Reads node `i` from its words, binding the input that it stands for. -/
def readNode (m : Module) (i : Nat) : List (List Char) → Except Error (Module × Node)
  | [] => .error .emptyNode
  | word :: args =>
    match Operator.ofSymbol? (.ofList word) with
    | some .const =>
      match args with
      | [] => .error (.badConstant i)
      | literal :: rest =>
        match Decimal.readFloat literal with
        | none => .error (.badConstant i)
        | some value => do
          expectEnd i rest
          return (m, .constant value)
    | some op => do
      let args ← readArgs i args
      if args.length = op.arity then return (m, .ofOp (.prim op) args)
      else throw (.argumentCount i (.ofList word) op.arity args.length)
    | none =>
      match m.inputNamed? word with
      | some (name, k) =>
        if isBound m.inputs k then .error (.duplicatedInput name)
        else do
          expectEnd i args
          return ({ m with inputs := bindPin m.inputs k i }, .ofOp (.input name) [])
      | none => do
        let args ← readArgs i args
        return (m, .ofOp (.symbol (.ofList word)) args)

/-- Reads the next node and appends it. -/
def addSegment (m : Module) (segment : List Char) : Except Error Module := do
  let i := m.size
  let (labels, body) ← splitLabels i segment
  let m ← labels.foldlM (bindOutput i) m
  let (m, node) ← m.readNode i (words body)
  return { m with nodes := m.nodes ++ [node] }

/-- Checks what can be seen only of a whole module: there are outputs, all of them are bound, and
all arguments name nodes. -/
def checkComplete (m : Module) : Except Error Unit :=
  if m.outputs.isEmpty then .error .noOutputs
  else
    match m.outputs.find? (·.index.isNone) with
    | some pin => .error (.missingOutput pin.name)
    | none =>
      match m.allArgs.find? (m.size ≤ ·) with
      | some arg => .error (.missingNode arg)
      | none => .ok ()

/-- Reads a module from its characters. -/
def parseChars (text : List Char) : Except Error Module := do
  let text := trim text
  if text.isEmpty then throw .emptyText
  let some shape := Shape.ofChars? text | throw .badShape
  let name := String.ofList shape.name
  if Operator.isSymbol name then throw (.reservedName name)
  let inputs := shape.inputs.filter (!isBlank ·)
  let outputs := shape.outputs.filter (!isBlank ·)
  if let some c := repeated? inputs then throw (.repeatedInput c)
  let m ← (splitAll '|' shape.body).foldlM addSegment
    (ofPins name (.ofList inputs) (.ofList outputs))
  m.checkComplete
  return m

/-- The module that a text describes. It is neither sorted nor rid of nodes that no output
needs, and its words are not looked up. -/
def parse (text : String) : Except Error Module :=
  parseChars text.toList

end Module

end ImageCircuit
