import ImageCircuit.Decimal.Read

/-!
# The command line

* `Invocation.parse`: what the words of a command line ask for

An option is given by its long name with its value behind an equals sign or in the next word, or by
its letter with the value in the same or the next word. A word of its own that starts with a hyphen
is no value. No option is given twice.

Words are read from left to right, and the first one that is wrong or asks for help or the version
decides. A value in a word of its own waits until the next option or operand, or the end.
-/

namespace ImageCircuit.Command

/-- What to do. -/
inductive Task where
  /-- Renders a program, or those of the input lines. -/
  | render (size samples : Option Nat) (outDir : String) (program : Option String)
  /-- Prints random circuits and renders them if asked to. -/
  | random (count : Nat) (nodes : Option Nat) (seed : Option UInt64) (render : Bool)
    (outDir : String)
  /-- Prints a random circuit and mutants of it. -/
  | mutants (count : Nat) (nodes : Option Nat) (seed : Option UInt64)
  /-- Prints the graphs of the programs of the input lines. -/
  | graph (json : Bool)
  deriving DecidableEq, Repr

/-- What a command line asks for. -/
structure Invocation where
  /-- The file with the settings. -/
  config : Option String
  /-- Whether log lines are JSON. -/
  logJson : Bool
  task : Task
  deriving DecidableEq, Repr

/-- Why a command line starts no task. -/
inductive Refusal where
  | usage
  | help
  | version
  deriving DecidableEq, Repr

/-! ## Options -/

/-- The kinds of options. -/
inductive OptKind where
  /-- An option without a value. -/
  | flag
  /-- An option whose value is a number below `2 ^ 64`. -/
  | number
  /-- An option whose value names a file or a directory. -/
  | path
  /-- The option that asks for help. -/
  | help
  /-- The option that asks for the version. -/
  | version
  deriving DecidableEq, Repr

/-- Whether options of a kind have values. -/
def OptKind.takesValue : OptKind → Bool
  | number | path => true
  | flag | help | version => false

/-- The value of an option. -/
inductive Value where
  | present
  | number (n : Nat)
  | path (name : String)
  deriving DecidableEq, Repr

/-- The value that a text is for an option; a path has a name. -/
def OptKind.read (text : String) : OptKind → Except Refusal Value
  | flag => .ok .present
  | number =>
    match Decimal.readCount text.toList with
    | some n => .ok (.number n)
    | none => .error .usage
  | path => if text = "" then .error .usage else .ok (.path text)
  | help => .error .help
  | version => .error .version

/-- An option by its name and, if it has one, its letter. -/
structure Opt where
  name : String
  letter : Option Char
  kind : OptKind
  deriving DecidableEq, Repr

/-- The options that are known everywhere. -/
def globalOpts : List Opt :=
  [⟨"config", none, .path⟩, ⟨"log-json", none, .flag⟩, ⟨"help", some 'h', .help⟩]

/-- The options in front of the name of a task. -/
def frontOpts : List Opt :=
  globalOpts ++ [⟨"version", some 'V', .version⟩]

/-- The names of the tasks. -/
inductive TaskName where
  | render
  | random
  | mutants
  | graph
  deriving DecidableEq, Repr

namespace TaskName

/-- The task that a word names. -/
def ofString? : String → Option TaskName
  | "render" => some render
  | "random" => some random
  | "mutants" => some mutants
  | "graph" => some graph
  | _ => none

/-- The options of a task, those known everywhere included. -/
def opts : TaskName → List Opt
  | render =>
    [⟨"size", some 's', .number⟩, ⟨"samples", some 'k', .number⟩,
      ⟨"out-dir", some 'o', .path⟩] ++ globalOpts
  | random =>
    [⟨"count", some 'n', .number⟩, ⟨"nodes", some 'k', .number⟩, ⟨"seed", none, .number⟩,
      ⟨"render", none, .flag⟩, ⟨"out-dir", some 'o', .path⟩] ++ globalOpts
  | mutants =>
    [⟨"count", some 'n', .number⟩, ⟨"nodes", some 'k', .number⟩, ⟨"seed", none, .number⟩] ++
      globalOpts
  | graph => ⟨"json", none, .flag⟩ :: globalOpts

/-- Whether a task takes an operand. -/
def takesOperand : TaskName → Bool
  | render => true
  | random | mutants | graph => false

end TaskName

/-! ## Words -/

/-- A word of the command line. -/
inductive Word where
  /-- Two hyphens alone: all words behind them are operands. -/
  | end
  /-- The name of an option and the value behind its equals sign. -/
  | long (name : String) (value : Option String)
  /-- The letter of an option and the value in the same word. -/
  | short (letter : Char) (value : Option String)
  | operand (text : String)
  deriving DecidableEq, Repr

/-- The value behind the letter of an option, where an equals sign may stand in front of it. -/
def shortValue? : List Char → Option String
  | [] => none
  | '=' :: value => some (.ofList value)
  | value => some (.ofList value)

/-- The kind of a word. -/
def Word.ofChars : List Char → Word
  | ['-', '-'] => .end
  | '-' :: '-' :: rest =>
    let name := rest.takeWhile (· ≠ '=')
    match rest.dropWhile (· ≠ '=') with
    | [] => .long (.ofList name) none
    | _ :: value => .long (.ofList name) (some (.ofList value))
  | '-' :: c :: rest => .short c (shortValue? rest)
  | s => .operand (.ofList s)

/-- The kind of a word given as a string. -/
def Word.ofString (s : String) : Word :=
  .ofChars s.toList

/-! ## Reading -/

/-- What has been read of a command line. -/
structure Progress where
  /-- The options given and their values. -/
  given : List (String × Value)
  /-- The last option if its value is not in its own word, and the next word once it is there. -/
  waiting : Option (Opt × Option String)
  operand : Option String
  /-- Whether only operands can follow. -/
  ended : Bool
  deriving DecidableEq, Repr

namespace Progress

/-- Nothing has been read. -/
def start : Progress where
  given := []
  waiting := none
  operand := none
  ended := false

/-- Adds an option that has not been given before. -/
def add (p : Progress) (opt : Opt) (text : String) : Except Refusal Progress := do
  if (p.given.lookup opt.name).isSome then throw .usage
  let value ← opt.kind.read text
  return { p with given := p.given ++ [(opt.name, value)] }

/-- Adds the option that waits for its value. -/
def settle (p : Progress) : Except Refusal Progress :=
  match p.waiting with
  | none => .ok p
  | some (_, none) => .error .usage
  | some (opt, some text) => { p with waiting := none }.add opt text

/-- Reads an option and the value in its word. One without a value there waits for it. -/
def takeOption (p : Progress) (opt : Opt) (value : Option String) : Except Refusal Progress := do
  let p ← p.settle
  if opt.kind.takesValue then
    match value with
    | some text => p.add opt text
    | none => return { p with waiting := some (opt, none) }
  else p.add opt ""

/-- Reads a long option; one of a kind without values has none behind an equals sign. -/
def takeLong (p : Progress) (opts : List Opt) (name : String) (value : Option String) :
    Except Refusal Progress :=
  match opts.find? (·.name = name) with
  | none => .error .usage
  | some opt =>
    if value.isSome && !opt.kind.takesValue then .error .usage else p.takeOption opt value

/-- Reads the option of a letter. -/
def takeShort (p : Progress) (opts : List Opt) (letter : Char) (value : Option String) :
    Except Refusal Progress :=
  match opts.find? (·.letter = some letter) with
  | none => .error .usage
  | some opt => p.takeOption opt value

/-- Reads an operand, of which there is at most one. -/
def takeOperand (p : Progress) (task : TaskName) (text : String) : Except Refusal Progress := do
  let p ← p.settle
  if task.takesOperand && p.operand.isNone then return { p with operand := some text }
  else throw .usage

/-- Reads a word behind the name of a task. -/
def takeWord (task : TaskName) (p : Progress) (word : String) : Except Refusal Progress :=
  if p.ended then p.takeOperand task word
  else
    match Word.ofString word with
    | .end => .ok { p with ended := true }
    | .long name value => p.takeLong task.opts name value
    | .short letter value => p.takeShort task.opts letter value
    | .operand text =>
      match p.waiting with
      | some (opt, none) => .ok { p with waiting := some (opt, some text) }
      | _ => p.takeOperand task text

/-- Reads the options up to the name of a task, and returns the words behind it. -/
def takeFront (p : Progress) : List String → Except Refusal (Progress × String × List String)
  | [] => .error .usage
  | word :: rest =>
    match Word.ofString word with
    | .end => .error .usage
    | .long name value => do (← p.takeLong frontOpts name value).takeFront rest
    | .short letter value => do (← p.takeShort frontOpts letter value).takeFront rest
    | .operand text =>
      match p.waiting with
      | some (opt, none) => takeFront { p with waiting := some (opt, some text) } rest
      | _ => .ok (p, text, rest)

/-- Whether an option is given. -/
def has (p : Progress) (name : String) : Bool :=
  (p.given.lookup name).isSome

/-- The number given for an option. -/
def number? (p : Progress) (name : String) : Option Nat :=
  match p.given.lookup name with
  | some (.number n) => some n
  | _ => none

/-- The file or directory given for an option. -/
def path? (p : Progress) (name : String) : Option String :=
  match p.given.lookup name with
  | some (.path path) => some path
  | _ => none

/-- The task that has been read. -/
def task (p : Progress) : TaskName → Task
  | .render => .render (p.number? "size") (p.number? "samples") ((p.path? "out-dir").getD ".")
    p.operand
  | .random => .random ((p.number? "count").getD 1) (p.number? "nodes")
    ((p.number? "seed").map .ofNat) (p.has "render") ((p.path? "out-dir").getD ".")
  | .mutants => .mutants ((p.number? "count").getD 10) (p.number? "nodes")
    ((p.number? "seed").map .ofNat)
  | .graph => .graph (p.has "json")

end Progress

/-- The answer to a call for help on what the words behind it name: nothing, a task, or help. -/
def Refusal.ofTopics : List String → Refusal
  | [] => .help
  | [topic] => if topic = "help" || (TaskName.ofString? topic).isSome then .help else .usage
  | _ => .usage

/-- What the words of a command line ask for. An option that is known everywhere counts behind the
name of the task before it counts in front. -/
def Invocation.parse (words : List String) : Except Refusal Invocation := do
  let (front, name, rest) ← Progress.start.takeFront words
  if name = "help" then throw (.ofTopics rest)
  let some taskName := TaskName.ofString? name | throw .usage
  let back ← rest.foldlM (Progress.takeWord taskName) .start
  let back ← back.settle
  let front ← front.settle
  return {
    config := back.path? "config" <|> front.path? "config"
    logJson := back.has "log-json" || front.has "log-json"
    task := back.task taskName }

end ImageCircuit.Command
