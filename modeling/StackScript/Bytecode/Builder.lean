import StackScript.Bytecode
import StackScript.Bytecode.Buffer
import StackScript.Scope

/-!
What is at hand while code is generated: the constants so far, the names in scope, the code of the
function at work and that of the functions around it.
-/

set_option autoImplicit false
set_option relaxedAutoImplicit false

namespace StackScript

/-- Why no code can be generated. -/
inductive CompileError where
  | unknownInfixOperator (op : String)
  | unknownPrefixOperator (op : String)
  | undefinedVariable (name : String)
  | operandTooLarge (opcode : Opcode) (operand : Nat)
  deriving DecidableEq, Repr

def CompileError.message : CompileError → String
  | unknownInfixOperator op => "unknown operator: " ++ op
  | unknownPrefixOperator op => "unknown operator: " ++ op
  | undefinedVariable name => "undefined variable " ++ name
  | operandTooLarge opcode operand => s!"operand {operand} does not fit in {opcode.name}"

structure Builder where
  constants : Array Value := #[]
  scopes : Scopes := {}
  buffer : Buffer := {}
  /-- The unfinished code of the functions around the current one, the nearest first. -/
  suspended : List Buffer := []
  deriving Inhabited

namespace Builder

/-- Binds the names of the provided functions. -/
def bindBuiltins (scopes : Scopes) : Scopes :=
  Builtin.all.foldl (fun scopes builtin ↦ (scopes.defineBuiltin builtin.index builtin.name).2)
    scopes

/-- Goes on with the names and constants of what was compiled before. The provided functions are
bound anew. -/
def resume (scopes : Scopes) (constants : Array Value) : Builder :=
  { constants := constants, scopes := bindBuiltins scopes }

def new : Builder := resume {} #[]

def bytecode (builder : Builder) : Bytecode :=
  ⟨builder.buffer.code, builder.constants⟩

/-- How many functions are open. -/
def depth (builder : Builder) : Nat :=
  builder.suspended.length

/-- Begins the code of a function inside the current one. -/
def enter (builder : Builder) : Builder :=
  { builder with
    scopes := builder.scopes.enclose
    buffer := {}
    suspended := builder.buffer :: builder.suspended }

/-- Ends the current function: its code and its scope, and the builder back at the function
around it. Outside of all functions nothing is left to go back to. -/
def leave (builder : Builder) : (Array UInt8 × Scope) × Builder :=
  ((builder.buffer.code, builder.scopes.current),
    { builder with
      scopes := builder.scopes.leave?.getD {}
      buffer := builder.suspended.head?.getD {}
      suspended := builder.suspended.tail })

end Builder

/-- Steps of code generation. An error keeps what was generated before it. -/
abbrev Build := EStateM CompileError Builder

namespace Build

/-- Adds a constant to the pool, and says under which entry. -/
def addConstant (constant : Label → Value) : Build Nat := fun builder ↦
  let entry := builder.constants.size
  .ok entry { builder with constants := builder.constants.push (constant (.literal entry)) }

/-- Writes an instruction at the end, and says where it starts. -/
def emit (opcode : Opcode) (operands : List Nat) : Build Nat := fun builder ↦
  match Instruction.oversized? opcode.widths operands with
  | some operand => .error (.operandTooLarge opcode operand) builder
  | none =>
    .ok builder.buffer.code.size
      { builder with buffer := builder.buffer.append opcode operands }

/-- The target of a jump until the real one is known. -/
def placeholder : Nat := 9999

/-- Writes a jump whose target comes later. -/
def emitJump (opcode : Opcode) : Build Nat :=
  emit opcode [placeholder]

/-- Lets the jump at `position` lead to the present end of the code. -/
def patchJump (position : Nat) (opcode : Opcode) : Build Unit := fun builder ↦
  let target := builder.buffer.code.size
  match Instruction.oversized? opcode.widths [target] with
  | some operand => .error (.operandTooLarge opcode operand) builder
  | none =>
    .ok () { builder with buffer := builder.buffer.replaceAt position opcode [target] }

/-- Takes back the last instruction if it discards a value. -/
def keepValue : Build Unit := fun builder ↦
  if builder.buffer.endsWith .pop then
    .ok () { builder with buffer := builder.buffer.dropLast }
  else .ok () builder

/-- Ends a body: a value that its last instruction would discard is returned instead, and a body
that ends with no value returns none. -/
def endBody : Build Unit := do
  modify fun builder ↦
    if builder.buffer.endsWith .pop then
      { builder with buffer := builder.buffer.replaceLast .returnValue }
    else builder
  if !(← get).buffer.endsWith .returnValue then
    let _ ← emit .ret []

/-- Gives a name a slot. -/
def define (name : String) : Build Symbol := fun builder ↦
  let (symbol, scopes) := builder.scopes.define name
  .ok symbol { builder with scopes := scopes }

def defineFunction (name : String) : Build Unit := fun builder ↦
  .ok () { builder with scopes := (builder.scopes.defineFunction name).2 }

def defineAll : List String → Build Unit
  | [] => pure ()
  | name :: rest => do
    let _ ← define name
    defineAll rest

def resolve (name : String) : Build Symbol := fun builder ↦
  match builder.scopes.resolve name with
  | some (symbol, scopes) => .ok symbol { builder with scopes := scopes }
  | none => .error (.undefinedVariable name) builder

/-- Code that yields the value of a symbol. -/
def load (symbol : Symbol) : Build Unit := do
  let _ ← match symbol.place with
    | .global => emit .getGlobal [symbol.index]
    | .localSlot => emit .getLocal [symbol.index]
    | .builtin => emit .getBuiltin [symbol.index]
    | .free => emit .getFree [symbol.index]
    | .function => emit .currentClosure []

def loadAll : List Symbol → Build Unit
  | [] => pure ()
  | symbol :: rest => do
    load symbol
    loadAll rest

/-- Generates the body of a function inside the current one: its code, and its scope as it is at
the end. The current function is gone back to also after an error. -/
def inFunction (body : Build Unit) : Build (Array UInt8 × Scope) := fun builder ↦
  match body builder.enter with
  | .ok _ builder =>
    let (left, builder) := builder.leave
    .ok left builder
  | .error error builder => .error error builder.leave.2

end Build

end StackScript
