/-!
The arguments of the command line, read from left to right: a file to run, or code with `-e`, and
the form to show with `--emit`.
-/

set_option autoImplicit false
set_option relaxedAutoImplicit false

namespace StackScript.CommandLine

/-- What can be shown of a program instead of running it. -/
inductive Form where
  | ast
  | bytecode
  deriving DecidableEq, Repr

def Form.ofName? : String → Option Form
  | "ast" => some ast
  | "bytecode" => some bytecode
  | _ => none

structure Arguments where
  file : Option String := none
  code : Option String := none
  form : Option Form := none
  deriving DecidableEq, Repr

/-- An option that takes a value. -/
inductive Valued where
  | code
  | form
  deriving DecidableEq, Repr

inductive Request where
  | version
  | run (arguments : Arguments)
  deriving DecidableEq, Repr

namespace Arguments

/-- No option is given twice, and a form is one of those that there are. -/
def set? (arguments : Arguments) (option : Valued) (value : String) : Option Arguments :=
  match option with
  | .code => if arguments.code.isSome then none else some { arguments with code := some value }
  | .form =>
    match Form.ofName? value with
    | some form =>
      if arguments.form.isSome then none else some { arguments with form := some form }
    | none => none

/-- There is one file, and its name is not empty. -/
def setFile? (arguments : Arguments) (name : String) : Option Arguments :=
  if name.isEmpty || arguments.file.isSome then none
  else some { arguments with file := some name }

/-- Code and a file exclude each other. -/
def finish? (arguments : Arguments) : Option Request :=
  if arguments.code.isSome && arguments.file.isSome then none else some (.run arguments)

end Arguments

/-- What an argument is, whatever stands before it. -/
inductive Item where
  | separator
  | version
  | option (option : Valued) (value : Option String)
  | unknown
  | plain
  deriving DecidableEq, Repr

/-- A value behind an equals sign, or none. -/
def attached? : List Char → Option String
  | '=' :: value => some (String.ofList value)
  | _ => none

def Item.ofLong (body : List Char) : Item :=
  let value := attached? (body.dropWhile (· != '='))
  match String.ofList (body.takeWhile (· != '=')) with
  | "version" => if value.isSome then unknown else version
  | "eval" => option .code value
  | "emit" => option .form value
  | _ => unknown

/-- One letter, and perhaps a value behind it, with or without an equals sign. -/
def Item.ofShort : List Char → Item
  | 'V' :: _ => version
  | ['e'] => option .code none
  | 'e' :: '=' :: value => option .code (some (String.ofList value))
  | 'e' :: value => option .code (some (String.ofList value))
  | _ => unknown

def Item.ofArgument (argument : String) : Item :=
  match argument.toList with
  | ['-', '-'] => separator
  | '-' :: '-' :: body => ofLong body
  | ['-'] => plain
  | '-' :: body => ofShort body
  | _ => plain

/-- Behind the separator each argument is a file. -/
def readFiles (arguments : Arguments) : List String → Option Request
  | [] => arguments.finish?
  | name :: rest => do readFiles (← arguments.setFile? name) rest

/-- Reads the arguments behind those already read. An option that still `wants` its value takes the
next argument, which must not look like an option itself. -/
def readFrom (arguments : Arguments) (wants : Option Valued) : List String → Option Request
  | [] => if wants.isSome then none else arguments.finish?
  | argument :: rest =>
    match wants, Item.ofArgument argument with
    | some option, .plain => do readFrom (← arguments.set? option argument) none rest
    | some _, _ => none
    | none, .separator => readFiles arguments rest
    | none, .version => some .version
    | none, .option option (some value) => do
      readFrom (← arguments.set? option value) none rest
    | none, .option option none => readFrom arguments (some option) rest
    | none, .unknown => none
    | none, .plain => do readFrom (← arguments.setFile? argument) none rest

/-- What is asked for; none for arguments that make no sense. -/
def Request.ofArguments? (arguments : List String) : Option Request :=
  readFrom {} none arguments

end StackScript.CommandLine
