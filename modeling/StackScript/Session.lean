import StackScript.Bytecode.Generate
import StackScript.Machine.Run
import StackScript.Program.Parser

/-!
Programs given in pieces. Each piece sees the names that earlier ones bound, and the globals that
they set, also those set by a piece that failed later on.
-/

set_option autoImplicit false
set_option relaxedAutoImplicit false

namespace StackScript

/-- Why a piece yields no value. -/
inductive EvalError where
  | syntactic (error : SyntaxError)
  | compilation (error : CompileError)
  | runtime (error : RunError)
  deriving Repr

def EvalError.message : EvalError → String
  | syntactic error => error.message
  | compilation error => "compile error: " ++ error.message
  | runtime error => "runtime error: " ++ error.message

structure Session where
  scopes : Scopes := {}
  constants : Array Value := #[]
  globals : Array (Option Value) := #[]
  /-- The number of the next label. -/
  serial : Nat := 0
  deriving Inhabited

/-- What comes of a piece: the value that was discarded last, if any was, or the error; and what
was printed. -/
structure Session.Answer where
  result : Except EvalError (Option Value)
  output : String

namespace Session

/-- Compiles a piece. The names and constants are kept also if that fails. -/
def compile (session : Session) (program : Program) :
    Except CompileError Bytecode × Session :=
  let (error?, builder) := (Builder.resume session.scopes session.constants).add program
  let session := { session with scopes := builder.scopes, constants := builder.constants }
  match error? with
  | some error => (.error error, session)
  | none => (.ok builder.bytecode, session)

/-- Runs a piece that was compiled. The globals are kept also if that fails. -/
def run (session : Session) (bytecode : Bytecode) : Answer × Session :=
  match Run.run (Machine.new bytecode session.globals session.serial) with
  | .ok _ machine =>
    (⟨.ok machine.lastPopped, machine.output⟩,
      { session with globals := machine.globals, serial := machine.serial })
  | .error error machine =>
    (⟨.error (.runtime error), machine.output⟩,
      { session with globals := machine.globals, serial := machine.serial })

def eval (session : Session) (source : String) : Answer × Session :=
  match Program.ofSource source with
  | .error error => (⟨.error (.syntactic error), ""⟩, session)
  | .ok program =>
    match session.compile program with
    | (.error error, session) => (⟨.error (.compilation error), ""⟩, session)
    | (.ok bytecode, session) => session.run bytecode

end Session

end StackScript
