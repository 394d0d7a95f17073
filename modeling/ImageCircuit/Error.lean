/-!
# Errors

An error is a cause with the names and numbers it is about; `Error.message` is its wording.

* `Error.kind`: the family of an error
* `Error.isUserError`: whether the text or the settings handed in are to blame
-/

namespace ImageCircuit

/-- Argument slot `slot` of node `node`. -/
structure Link where
  node : Nat
  slot : Nat
  deriving DecidableEq, Repr, Inhabited

/-- Why an operation failed. -/
inductive Error where
  -- The text of a module
  | emptyText
  | badShape
  | emptyNode
  | severalColons (node : Nat)
  | badConstant (node : Nat)
  | badArgument (node : Nat) (word : String)
  | unexpectedWord (node : Nat) (word : String)
  | argumentCount (node : Nat) (symbol : String) (arity given : Nat)
  -- The pins and nodes of a module
  | reservedName (name : String)
  | repeatedInput (name : Char)
  | noOutputs
  | missingOutput (name : Char)
  | unknownOutput (name : Char)
  | duplicatedOutput (name : Char)
  | duplicatedInput (name : Char)
  | missingNode (index : Nat)
  | duplicatedModule (name : String)
  -- The modules of a circuit
  | noEntry
  | entryOutputs (names : String)
  | severalOutputs (name : String)
  | missingModule (name : String)
  | callArity (name : String) (inputs given : Nat)
  | recursiveCall (name : String)
  /-- Some nodes of a module depend on a cycle of arguments. -/
  | cycle (name : String) (unranked : Nat)
  -- Evaluation
  | callOutside (index : Nat)
  | unresolved (symbol : String)
  | noModule (index : Nat)
  | noOutput (index : Nat)
  -- Mutation and generation
  | swapCycle (first second : Link) (name : String) (unranked : Nat)
  | openArgument (node : Nat)
  | nothingToGenerate
  -- Settings
  | probability (name got : String)
  | noGeneratedOutputs
  | zeroSize
  | zeroSamples
  -- The surroundings
  /-- A text is no valid document of its kind. -/
  | undecodable
  | unreadableFile
  | unwritableFile
  -- Broken modules
  /-- An argument or a pin names a node past the end. -/
  | badIndex
  /-- A primitive node has more arguments than any operator takes. -/
  | tooManyArguments
  deriving DecidableEq, Repr

namespace Error

/-- The families of errors. -/
inductive Kind where
  | wording
  | structural
  | composition
  | cyclic
  | internal
  | settings
  | file
  | decoding
  /-- A module that no reader or generator makes was followed past its end. -/
  | broken
  deriving DecidableEq, Repr

/-- The family of an error. -/
def kind : Error → Kind
  | emptyText | badShape | emptyNode | severalColons _ | badConstant _ | badArgument _ _
  | unexpectedWord _ _ | argumentCount _ _ _ _ => .wording
  | reservedName _ | repeatedInput _ | noOutputs | missingOutput _ | unknownOutput _
  | duplicatedOutput _ | duplicatedInput _ | missingNode _ | duplicatedModule _ => .structural
  | noEntry | entryOutputs _ | severalOutputs _ | missingModule _ | callArity _ _ _
  | recursiveCall _ => .composition
  | cycle _ _ => .cyclic
  | callOutside _ | unresolved _ | noModule _ | noOutput _ | swapCycle _ _ _ _
  | openArgument _ => .internal
  | nothingToGenerate | probability _ _ | noGeneratedOutputs | zeroSize | zeroSamples => .settings
  | unreadableFile | unwritableFile => .file
  | undecodable => .decoding
  | badIndex | tooManyArguments => .broken

/-- Whether the text or the settings handed in are to blame, and not the program or its
surroundings. -/
def isUserError (e : Error) : Bool :=
  match e.kind with
  | .wording | .structural | .composition | .cyclic | .settings => true
  | .internal | .file | .decoding | .broken => false

/-- A link in the wording of a failed swap. -/
def linkText (l : Link) : String :=
  s!"Link \x7b node: {l.node}, slot: {l.slot} \x7d"

/-- The wording of a cycle. -/
def cycleText (name : String) (unranked : Nat) : String :=
  s!"Module `{name}` has a cycle: {unranked} nodes cannot be ordered"

/-- The wording of an error without the mark of its family. -/
def detail : Error → String
  | emptyText => "Module is empty"
  | badShape => "Modules must have format `(abc)name(xyz)[...]`"
  | emptyNode => "Empty node"
  | severalColons node => s!"Error in node {node}: wrong number of ':'"
  | badConstant node => s!"Error in node {node}: cannot read constant"
  | badArgument node word => s!"Error in node {node}: bad argument '{word}'"
  | unexpectedWord node word => s!"Error in node {node}: unexpected '{word}'"
  | argumentCount node symbol arity given =>
    s!"Error in node {node}: `{symbol}` has {arity} args, not {given}."
  | reservedName name => s!"Module name '{name}' is reserved"
  | repeatedInput name => s!"Input '{name}' declared twice"
  | noOutputs => "Error in module: there are no outputs"
  | missingOutput name => s!"Missing output `{name}`"
  | unknownOutput name => s!"There is no output '{name}'"
  | duplicatedOutput name => s!"Duplicated output '{name}'"
  | duplicatedInput name => s!"Duplicated input '{name}'"
  | missingNode index => s!"Nonexistent node {index}"
  | duplicatedModule name => s!"Duplicated module `{name}`."
  | noEntry => "There is no main module (with empty name)"
  | entryOutputs names => s!"Outputs != 'rgb'! (outputs = '{names}')"
  | severalOutputs name => s!"Module `{name}` has more than one output"
  | missingModule name => s!"Missing module `{name}`"
  | callArity name inputs given => s!"Module `{name}` has {inputs} inputs, not {given}."
  | recursiveCall name => s!"Recursive call through module `{name}`"
  | cycle name unranked => cycleText name unranked
  | callOutside index => s!"call to module #{index} outside of a circuit"
  | unresolved symbol => s!"Op '{symbol}' not implemented!"
  | noModule index => s!"Module #{index} missing"
  | noOutput index => s!"Module #{index} produced no output"
  | swapCycle first second name unranked =>
    let swap := s!"connection swap {linkText first} <-> {linkText second}"
    s!"{swap} broke ordering: {cycleText name unranked}"
  | openArgument node => s!"node {node} has an open argument and no later node"
  | nothingToGenerate => "cannot generate a module without nodes or inputs"
  | probability name got => s!"{name} must be in [0, 1] (got {got})"
  | noGeneratedOutputs => "generator.outputs must not be empty"
  | zeroSize => "render.size must be at least 1"
  | zeroSamples => "render.samples must be at least 1"
  | undecodable => "the text is not a valid document"
  | unreadableFile => "the file cannot be read"
  | unwritableFile => "the file cannot be written"
  | badIndex => "an index points past the last node"
  | tooManyArguments => "a primitive node has too many arguments"

/-- The wording of an error. Errors that the text of a program causes show their detail alone. -/
def message (e : Error) : String :=
  match e.kind with
  | .wording | .structural | .composition | .cyclic => e.detail
  | .internal => "Internal error: " ++ e.detail
  | .settings => "Configuration error: " ++ e.detail
  | .file => "IO error: " ++ e.detail
  | .decoding => "Serialization error: " ++ e.detail
  | .broken => "Broken module: " ++ e.detail

end Error

end ImageCircuit
