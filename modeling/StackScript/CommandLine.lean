import StackScript.CommandLine.Arguments
import StackScript.Program.Json
import StackScript.Repl

/-!
What the command does: it runs a file or code given to it, or shows a form of it, or else answers
line by line.
-/

set_option autoImplicit false
set_option relaxedAutoImplicit false

namespace StackScript.CommandLine

/-- How the command ends: the exit status, and what it wrote. -/
structure Outcome where
  exit : Nat
  printed : Printed
  deriving DecidableEq, Repr, Inhabited

def version : String := "monkey 0.4.0"

def usage : String :=
  "usage: monkey [FILE | -e CODE] [--emit ast|bytecode]"

def success (output : String) : Outcome :=
  ⟨0, ⟨output, ""⟩⟩

def failure (output complaint : String) : Outcome :=
  ⟨1, ⟨output, complaint ++ "\n"⟩⟩

/-- Wrong arguments. -/
def misuse : Outcome :=
  ⟨2, ⟨"", usage ++ "\n"⟩⟩

def noSuchFile (name : String) : Outcome :=
  failure "" ("Error reading " ++ name ++ ": No such file or directory (os error 2)")

def notText (name : String) : Outcome :=
  failure "" ("Error reading " ++ name ++ ": stream did not contain valid UTF-8")

/-- Does something with a program that can be compiled. -/
def withBytecode (program : Program) (use : Bytecode → Outcome) : Outcome :=
  match Builder.new.add program with
  | (some error, _) => failure "" ("Compilation failed: " ++ error.message)
  | (none, builder) => use builder.bytecode

/-- Runs a program from its start, and shows its value if `showValue` asks for it and there is
one. -/
def run (showValue : Bool) (bytecode : Bytecode) : Outcome :=
  match Run.run (Machine.new bytecode #[] 0) with
  | .error error machine =>
    failure machine.output ("Executing bytecode failed: " ++ error.message)
  | .ok _ machine =>
    match showValue, machine.lastPopped with
    | true, some value => success (machine.output ++ value.inspect ++ "\n")
    | _, _ => success machine.output

def onSource (form : Option Form) (showValue : Bool) (source : String) : Outcome :=
  match Program.ofSource source with
  | .error error => failure "" error.bullets
  | .ok program =>
    match form with
    | some .ast => success (program.toJson.toPrettyString ++ "\n")
    | some .bytecode => withBytecode program fun bytecode ↦ success bytecode.listing
    | none => withBytecode program (run showValue)

/-- A file's content, none if there is no such file. -/
abbrev Files := String → Option ByteArray

def onFile (form : Option Form) (files : Files) (name : String) : Outcome :=
  match files name with
  | none => noSuchFile name
  | some bytes =>
    match String.fromUTF8? bytes with
    | none => notText name
    | some source => onSource form false source

/-- The whole command. The value of code given as an argument is shown, that of a file is not; a
form is asked for in vain where lines are answered. -/
def execute (files : Files) (input : String) (arguments : List String) : Outcome :=
  match Request.ofArguments? arguments with
  | none => misuse
  | some .version => success (version ++ "\n")
  | some (.run arguments) =>
    match arguments.code, arguments.file with
    | some code, _ => onSource arguments.form true code
    | none, some name => onFile arguments.form files name
    | none, none => ⟨0, Repl.transcript input⟩

end StackScript.CommandLine
