import StackScript.CommandLine

/-!
The program: it reads files and lines, and writes what comes of them.
-/

set_option autoImplicit false
set_option relaxedAutoImplicit false

open StackScript

/-- Writes to both outputs. -/
def emitPrinted (printed : Printed) : IO Unit := do
  unless printed.stdout.isEmpty do
    let stdout ← IO.getStdout
    stdout.putStr printed.stdout
    stdout.flush
  unless printed.stderr.isEmpty do
    (← IO.getStderr).putStr printed.stderr

/-- Answers the lines of the input until it ends. -/
partial def answerLines (input : IO.FS.Stream) (session : Session) : IO Unit := do
  let line ← input.getLine
  unless line.isEmpty do
    let (printed, session) :=
      Repl.answer session (String.ofList (Repl.dropLineEnd line.toList))
    emitPrinted printed
    answerLines input session

/-- The content of a file, none if it cannot be read. -/
def readFile? (name : String) : IO (Option ByteArray) := do
  try
    return some (← IO.FS.readBinFile name)
  catch _ =>
    return none

def main (arguments : List String) : IO UInt32 := do
  match CommandLine.Request.ofArguments? arguments with
  | some (.run { file := none, code := none, form := _ }) =>
    emitPrinted ⟨Repl.banner, ""⟩
    answerLines (← IO.getStdin) {}
    return 0
  | some (.run { file := some name, code := _, form := _ }) =>
    let content ← readFile? name
    let outcome := CommandLine.execute (fun _ ↦ content) "" arguments
    emitPrinted outcome.printed
    return UInt32.ofNat outcome.exit
  | _ =>
    let outcome := CommandLine.execute (fun _ ↦ none) "" arguments
    emitPrinted outcome.printed
    return UInt32.ofNat outcome.exit
