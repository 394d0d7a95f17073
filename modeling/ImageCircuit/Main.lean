import ImageCircuit.Command.Plan
import ImageCircuit.Image.Png

/-!
# The program

Reads the settings file and the standard input, and carries out the plan of the command line. The
exit code is 0, 1 after a failure, and 2 for a command line that asks for nothing known.
-/

namespace ImageCircuit.Command

/-- How the program is called. -/
def usageText : String :=
  "usage: [--config FILE] [--log-json] TASK\n" ++
  "  render [-s SIZE] [-k SAMPLES] [-o DIR] [PROGRAM]\n" ++
  "  random [-n COUNT] [-k NODES] [--seed SEED] [--render] [-o DIR]\n" ++
  "  mutants [-n COUNT] [-k NODES] [--seed SEED]\n" ++
  "  graph [--json]\n"

/-- The text of a file, or none if it cannot be read. -/
def readText (path : String) : IO (Option String) := do
  try return some (← IO.FS.readFile path) catch _ => return none

/-- The rest of a stream. -/
partial def readRest (stream : IO.FS.Stream) (text : String) : IO String := do
  let line ← stream.getLine
  if line.isEmpty then return text else readRest stream (text ++ line)

/-- Eight random bytes as a number. -/
def randomSeed : IO UInt64 := do
  let bytes ← IO.getRandomBytes 8
  return bytes.foldl (fun n byte => n * 256 + byte.toUInt64) 0

/-- Writes the wording of an error to the log. -/
def reportError (logJson : Bool) (e : Error) : IO Unit :=
  if logJson then
    IO.eprintln (Json.fields [("level", .text "ERROR"), ("message", .text e.message)]).compact
  else IO.eprintln s!"ERROR: {e.message}"

/-- Carries out one step; the answer is an error that ends the command. -/
def perform (logJson : Bool) : Action → IO (Option Error)
  | .print text => do
    IO.print text
    return none
  | .report e => do
    reportError logJson e
    return none
  | .save path image => do
    try
      IO.FS.writeBinFile path ⟨image.png.toArray⟩
      return none
    catch _ => return some .unwritableFile

/-- Carries out a plan; the answer is the error that ends it. -/
def performAll (logJson : Bool) : Plan → IO (Option Error)
  | .done => return none
  | .fail e => return some e
  | .step action next => do
    match ← perform logJson action with
    | some e => return some e
    | none => performAll logJson (next ())

/-- Runs a command and returns the exit code. -/
def runInvocation (invocation : Invocation) : IO UInt32 := do
  let document ← match invocation.config with
    | some path => readText path
    | none => pure none
  let input ← if invocation.task.readsInput then readRest (← IO.getStdin) "" else pure ""
  let plan := invocation.plan document input (← randomSeed)
  match ← performAll invocation.logJson plan with
  | none => return 0
  | some e => do
    reportError invocation.logJson e
    return 1

end ImageCircuit.Command

/-- Runs the command line. -/
def main (args : List String) : IO UInt32 :=
  match ImageCircuit.Command.Invocation.parse args with
  | .ok invocation => ImageCircuit.Command.runInvocation invocation
  | .error .help => do
    IO.print ImageCircuit.Command.usageText
    return 0
  | .error .version => do
    IO.print ImageCircuit.Command.versionText
    return 0
  | .error .usage => do
    IO.eprint ImageCircuit.Command.usageText
    return 2
