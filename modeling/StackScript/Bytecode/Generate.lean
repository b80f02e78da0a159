import StackScript.Bytecode.Builder
import StackScript.Program

/-!
Code for programs. An expression leaves one value on the stack; a statement leaves none.
-/

set_option autoImplicit false
set_option relaxedAutoImplicit false

namespace StackScript

open Build

/-- The operation of a binary operator, but for `<`, which has none of its own. -/
def Opcode.ofInfix? : String → Option Opcode
  | "+" => some add
  | "-" => some sub
  | "*" => some mul
  | "/" => some div
  | ">" => some greaterThan
  | "==" => some equal
  | "!=" => some notEqual
  | _ => none

def Opcode.ofPrefix? : String → Option Opcode
  | "!" => some bang
  | "-" => some minus
  | _ => none

mutual

def Expr.generate : Expr → Build Unit
  | .int value => do
    let entry ← addConstant fun _ ↦ .integer value
    let _ ← emit .constant [entry]
  | .str content => do
    let entry ← addConstant fun label ↦ .string label content
    let _ ← emit .constant [entry]
  | .bool value => do
    let _ ← emit (if value then .true else .false) []
  | .ident name => do load (← resolve name)
  | .unary op operand => do
    operand.generate
    match Opcode.ofPrefix? op with
    | some opcode => let _ ← emit opcode []
    | none => throw (.unknownPrefixOperator op)
  | .binary op left right => do
    -- `a < b` is `b > a`, and `b` is evaluated first.
    if op = "<" then
      right.generate
      left.generate
      let _ ← emit .greaterThan []
    else
      left.generate
      right.generate
      match Opcode.ofInfix? op with
      | some opcode => let _ ← emit opcode []
      | none => throw (.unknownInfixOperator op)
  | .branch condition consequence alternative => do
    condition.generate
    let pass ← emitJump .jumpNotTruthy
    Stmt.generateAll consequence
    keepValue
    let finish ← emitJump .jump
    patchJump pass .jumpNotTruthy
    match alternative with
    | some block =>
      Stmt.generateAll block
      keepValue
    | none => let _ ← emit .null []
    patchJump finish .jump
  | .function parameters body name => do
    let (code, scope) ← inFunction do
      match name with
      | some name => defineFunction name
      | none => pure ()
      defineAll parameters
      Stmt.generateAll body
      endBody
    loadAll scope.captured
    let entry ← addConstant fun label ↦
      .routine label ⟨code, scope.definitions, parameters.length⟩
    let _ ← emit .closure [entry, scope.captured.length]
  | .call callee arguments => do
    callee.generate
    Expr.generateAll arguments
    let _ ← emit .call [arguments.length]
  | .array elements => do
    Expr.generateAll elements
    let _ ← emit .array [elements.length]
  | .hash pairs => do
    Expr.generatePairs pairs
    let _ ← emit .hash [2 * pairs.length]
  | .index collection position => do
    collection.generate
    position.generate
    let _ ← emit .index []

def Stmt.generate : Stmt → Build Unit
  | .eval expr => do
    expr.generate
    let _ ← emit .pop []
  | .bind name value => do
    let symbol ← define name
    value.generate
    let _ ← emit (if symbol.place = .global then .setGlobal else .setLocal) [symbol.index]
  | .ret value => do
    value.generate
    let _ ← emit .returnValue []

def Stmt.generateAll : List Stmt → Build Unit
  | [] => pure ()
  | stmt :: rest => do
    stmt.generate
    Stmt.generateAll rest

def Expr.generateAll : List Expr → Build Unit
  | [] => pure ()
  | expr :: rest => do
    expr.generate
    Expr.generateAll rest

def Expr.generatePairs : List (Expr × Expr) → Build Unit
  | [] => pure ()
  | (key, value) :: rest => do
    key.generate
    value.generate
    Expr.generatePairs rest

end

namespace Builder

/-- Adds the code of a program to the current function. An error keeps what was generated before
it. -/
def add (builder : Builder) (program : Program) : Option CompileError × Builder :=
  match Stmt.generateAll program.statements builder with
  | .ok _ builder => (none, builder)
  | .error error builder => (some error, builder)

end Builder

end StackScript
