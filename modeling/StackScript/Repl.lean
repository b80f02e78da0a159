import StackScript.Session
import StackScript.Text.Blank

/-!
Answers to lines of input: values go to the standard output, complaints to the standard error.
-/

set_option autoImplicit false
set_option relaxedAutoImplicit false

namespace StackScript

/-- What was written to the two outputs. -/
structure Printed where
  stdout : String := ""
  stderr : String := ""
  deriving DecidableEq, Repr, Inhabited

def Printed.append (first second : Printed) : Printed :=
  ⟨first.stdout ++ second.stdout, first.stderr ++ second.stderr⟩

/-- Errors of syntax as a list of points. -/
def SyntaxError.bullets (error : SyntaxError) : String :=
  let messages :=
    match error with
    | .lexical error => [error.message]
    | .grammatical errors => errors.map ParseError.message
  "\n".intercalate (messages.map (" • " ++ ·))

namespace Repl

def banner : String :=
  "Welcome to MONKEY\nTry out the language below\n\n"

def complaint : EvalError → String
  | .syntactic error => error.bullets ++ "\n"
  | .compilation error => "Whoops! Compilation failed\n " ++ error.message ++ "\n\n"
  | .runtime error => "Whoops! Executing bytecode failed\n " ++ error.message ++ "\n\n"

/-- A blank line is passed over; any other is evaluated, and its value shown if it has one. -/
def answer (session : Session) (line : String) : Printed × Session :=
  if Text.isBlank line then ({}, session)
  else
    let (evaluated, session) := session.eval line
    let printed : Printed :=
      match evaluated.result with
      | .ok (some value) => ⟨evaluated.output ++ value.inspect ++ "\n", ""⟩
      | .ok none => ⟨evaluated.output, ""⟩
      | .error error => ⟨evaluated.output, complaint error⟩
    (printed, session)

/-- Removes the end of a line: a line feed, and a carriage return before it. -/
def dropLineEnd (line : List Char) : List Char :=
  match line.reverse with
  | '\n' :: '\r' :: rest => rest.reverse
  | '\n' :: rest => rest.reverse
  | _ => line

/-- The lines of a text, with their ends; `line` holds the start of the first one, its last
character first, and `done` the lines before it, the last of them first. -/
def linesFrom (done : List (List Char)) (line : List Char) : List Char → List (List Char)
  | [] => (if line.isEmpty then done else line.reverse :: done).reverse
  | c :: rest =>
    if c = '\n' then linesFrom ((c :: line).reverse :: done) [] rest
    else linesFrom done (c :: line) rest

/-- The lines of a text without their ends. What follows the last line feed is a line unless it
is empty. -/
def lines (text : String) : List String :=
  (linesFrom [] [] text.toList).map fun line ↦ String.ofList (dropLineEnd line)

/-- What is written over a whole input. -/
def transcript (input : String) : Printed :=
  ((lines input).foldl
    (fun (printed, session) line ↦
      let (more, session) := answer session line
      (printed.append more, session))
    ((⟨banner, ""⟩ : Printed), ({} : Session))).1

end Repl

end StackScript
