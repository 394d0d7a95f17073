import ImageCircuit.Circuit.Read
import ImageCircuit.Command.Options
import ImageCircuit.Generation
import ImageCircuit.Graph.Dot
import ImageCircuit.Graph.Json
import ImageCircuit.Image.Render
import ImageCircuit.Mutation
import ImageCircuit.Settings.Json

/-!
# What a command does

A plan says what a command prints and saves, in order, and whether it fails in the end, without
doing any of it.

* `plan`: the plan of a task
-/

namespace ImageCircuit.Command

/-- The name and the version of the program, as it shows them itself. -/
def versionText : String :=
  "evoimg 0.1.0\n"

/-- One visible step of a command. -/
inductive Action where
  /-- Writes text to the standard output. -/
  | print (text : String)
  /-- Writes an image to a file. -/
  | save (path : String) (image : Grid)
  /-- Reports an error that does not end the command. -/
  | report (cause : Error)
  deriving Repr

/-- What a command does, step by step. What follows a step is found when the step is done. -/
inductive Plan where
  | done
  | fail (cause : Error)
  | step (action : Action) (next : Unit → Plan)

namespace Plan

/-- Goes on with a result, or ends with its error. -/
def onResult {α : Type} (result : Except Error α) (next : α → Plan) : Plan :=
  match result with
  | .ok x => next x
  | .error e => .fail e

/-- Some actions in a row, and what follows them. -/
def sequence : List Action → (Unit → Plan) → Plan
  | [], next => next ()
  | action :: rest, next => .step action fun () => sequence rest next

end Plan

open Plan (onResult sequence)

/-- A circuit on a line of its own. -/
def printCircuit (c : Circuit) : Action :=
  .print (c.text ++ "\n")

/-! ## Images -/

/-- A number with at least four digits. -/
def fourDigits (n : Nat) : String :=
  let digits := Decimal.digitsOf n
  .ofList (List.replicate (4 - digits.length) '0' ++ digits)

/-- The file of image `n`. -/
def imagePath (dir : String) (n : Nat) : String :=
  let separator := if dir.toList.getLast? = some '/' then "" else "/"
  s!"{dir}{separator}img{fourDigits n}.png"

/-- Renders a circuit into the file of image `n`. -/
def saveImage (s : RenderSettings) (dir : String) (n : Nat) (c : Circuit) (next : Unit → Plan) :
    Plan :=
  onResult (renderParallel s c) fun image => .step (.save (imagePath dir n) image) next

/-! ## Tasks -/

/-- The lines of a text that are not blank, trimmed. -/
def inputLines (text : String) : List String :=
  ((Text.splitAll '\n' text.toList).map Text.trim).filterMap fun line =>
    if line.isEmpty then none else some (.ofList line)

/-- Prints and renders programs, the images counted from `n` on. -/
def renderPrograms (s : RenderSettings) (dir : String) (n : Nat) : List String → Plan
  | [] => .done
  | program :: rest =>
    onResult (Circuit.read program) fun c =>
      .step (printCircuit c) fun () =>
        saveImage s dir n c fun () => renderPrograms s dir (n + 1) rest

/-- Prints random circuits, the first being number `n`, and renders them if asked to. -/
def randomCircuits (s : Settings) (render : Bool) (dir : String) (n : Nat) :
    (count : Nat) → ChaCha → Plan
  | 0, _ => .done
  | count + 1, source =>
    let (result, source) := (Circuit.draw s.generator).run.run source
    onResult result fun c =>
      let next := fun () => randomCircuits s render dir (n + 1) count source
      .step (printCircuit c) (if render then fun () => saveImage s.render dir n c next else next)

/-- Prints a random circuit and mutants of it. -/
def mutantCircuits (s : Settings) (count : Nat) (source : ChaCha) : Plan :=
  let (result, source) := (Circuit.draw s.generator).run.run source
  onResult result fun parent =>
    .step (printCircuit parent) fun () =>
      onResult ((parent.mutants s.mutation count).run source).1 fun children =>
        sequence (children.map printCircuit) fun () => .done

/-- Prints the graph of a program, or reports why it cannot be read. -/
def showGraph (json : Bool) (program : String) : Action :=
  match Circuit.read program with
  | .error e => .report e
  | .ok c => .print (if json then Graph.json c.graph ++ "\n" else Graph.dot c.graph)

/-- Prints the graphs of programs; a program that cannot be read is left out. -/
def programGraphs (json : Bool) : List String → Plan
  | [] => .done
  | program :: rest => .step (showGraph json program) fun () => programGraphs json rest

/-- The settings with the values that the command line gives. -/
def Task.adjust (s : Settings) : Task → Settings
  | .render size samples _ _ =>
    let render := { s.render with
      size := size.getD s.render.size
      samples := samples.getD s.render.samples }
    { s with render }
  | .random _ nodes _ _ _ | .mutants _ nodes _ =>
    { s with generator := { s.generator with numNodes := nodes.getD s.generator.numNodes } }
  | .graph _ => s

/-- The seed that the command line gives. -/
def Task.seed? : Task → Option UInt64
  | .random _ _ seed _ _ | .mutants _ _ seed => seed
  | _ => none

/-- Whether a task reads the standard input. -/
def Task.readsInput : Task → Bool
  | .render _ _ _ program => program.isNone
  | .graph _ => true
  | _ => false

/-- Refuses settings that a task could not follow; a graph needs none. -/
def Task.check (s : Settings) : Task → Except Error Unit
  | .graph _ => .ok ()
  | _ => s.validate

/-- The plan of a task over the given settings and input. `seed` is taken where the command line
gives none. -/
def plan (task : Task) (settings : Settings) (input : String) (seed : UInt64) : Plan :=
  let settings := task.adjust settings
  let source := ChaCha.ofSeed (task.seed?.getD seed)
  onResult (task.check settings) fun () =>
    match task with
    | .render _ _ dir program =>
      let programs := match program with
        | some program => [program]
        | none => inputLines input
      renderPrograms settings.render dir 1 programs
    | .random count _ _ render dir => randomCircuits settings render dir 1 count source
    | .mutants count _ _ => mutantCircuits settings count source
    | .graph json => programGraphs json (inputLines input)

/-- The plan of a command line whose settings file has the given text, or none if it cannot be
read. -/
def Invocation.plan (invocation : Invocation) (document : Option String) (input : String)
    (seed : UInt64) : Plan :=
  let settings := match invocation.config, document with
    | none, _ => .ok .standard
    | some _, none => .error .unreadableFile
    | some _, some text => Settings.parse text
  onResult settings fun settings => Command.plan invocation.task settings input seed

end ImageCircuit.Command
