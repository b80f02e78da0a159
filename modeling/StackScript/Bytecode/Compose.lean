import StackScript.Bytecode.Assemble

/-!
Code for programs as a function of their parts alone. The code of a part is what its parts give, put
together; nothing that was written is changed, and nothing is held against the place it has in the
end: functions keep their code as instructions, and operands are as large as they come out. Only a
name that stands for nothing and an operator that there is not have no code.
-/

set_option autoImplicit false
set_option relaxedAutoImplicit false

namespace StackScript

open Instruction (size encodeAll)

/-- A constant before its code is written in bytes. -/
inductive Piece where
  | int (value : Int64)
  | str (content : String)
  | function (code : List Instruction) (locals parameters : Nat)

namespace Piece

def value (label : Label) : Piece → Value
  | int value => .integer value
  | str content => .string label content
  | function code locals parameters => .routine label ⟨(encodeAll code).toArray, locals, parameters⟩

/-- The instructions of a function. -/
def code : Piece → List Instruction
  | function code _ _ => code
  | int _ | str _ => []

end Piece

/-- What a part leaves to the next: the constants and the scopes. -/
structure Outline where
  pieces : Array Piece := #[]
  scopes : Scopes := {}

/-- The constants under the labels of their entries. -/
def Outline.constants (outline : Outline) : Array Value :=
  outline.pieces.mapIdx fun entry piece ↦ piece.value (.literal entry)

abbrev Composer := EStateM CompileError Outline

namespace Composer

def addPiece (piece : Piece) : Composer Nat := fun outline ↦
  .ok outline.pieces.size { outline with pieces := outline.pieces.push piece }

def define (name : String) : Composer Symbol := fun outline ↦
  let (symbol, scopes) := outline.scopes.define name
  .ok symbol { outline with scopes := scopes }

def resolve (name : String) : Composer Symbol := fun outline ↦
  match outline.scopes.resolve name with
  | some (symbol, scopes) => .ok symbol { outline with scopes := scopes }
  | none => .error (.undefinedVariable name) outline

def prefixOperator (op : String) : Composer Opcode :=
  match Opcode.ofPrefix? op with
  | some opcode => pure opcode
  | none => throw (.unknownPrefixOperator op)

def infixOperator (op : String) : Composer Opcode :=
  match Opcode.ofInfix? op with
  | some opcode => pure opcode
  | none => throw (.unknownInfixOperator op)

/-- What a body yields inside a function, with the function's scope at the end. -/
def inFunction (name : Option String) (parameters : List String)
    (body : Composer (List Instruction)) : Composer (List Instruction × Scope) :=
  fun outline ↦
    match body { outline with scopes := Assembly.enter name parameters outline.scopes } with
    | .ok code outline =>
      .ok (code, outline.scopes.current) { outline with scopes := outline.scopes.leave?.getD {} }
    | .error error outline => .error error outline

end Composer

/-- The instruction that puts the value of a `let` in its place. -/
def Symbol.storing (symbol : Symbol) : Instruction :=
  ⟨if symbol.place = .global then .setGlobal else .setLocal, [symbol.index]⟩

open Composer

mutual

/-- The code of an expression that begins at the offset `start`. -/
def Expr.compose : Expr → Nat → Composer (List Instruction)
  | .int value, _ => do return [⟨.constant, [← addPiece (.int value)]⟩]
  | .str content, _ => do return [⟨.constant, [← addPiece (.str content)]⟩]
  | .bool value, _ => return [⟨if value then .true else .false, []⟩]
  | .ident name, _ => do return [(← resolve name).loading]
  | .unary op operand, start => do
    let code ← operand.compose start
    return code ++ [⟨← prefixOperator op, []⟩]
  | .binary op left right, start => do
    if op = "<" then
      let second ← right.compose start
      let first ← left.compose (start + size second)
      return second ++ first ++ [⟨.greaterThan, []⟩]
    else
      let first ← left.compose start
      let second ← right.compose (start + size first)
      return first ++ second ++ [⟨← infixOperator op, []⟩]
  | .branch condition consequence alternative, start => do
    let test ← condition.compose start
    let first ← Stmt.composeAll consequence .keep (start + size test + 3)
    let otherwise := start + size test + 3 + size first + 3
    let second ←
      match alternative with
      | some block => Stmt.composeAll block .keep otherwise
      | none => pure [⟨.null, []⟩]
    return test ++ [⟨.jumpNotTruthy, [otherwise]⟩] ++ first ++
      [⟨.jump, [otherwise + size second]⟩] ++ second
  | .function parameters body name, _ => do
    let (code, scope) ← inFunction name parameters do
      let code ← Stmt.composeAll body .giveBack 0
      return if Stmt.returns body then code else code ++ [⟨.ret, []⟩]
    let entry ← addPiece (.function code scope.definitions parameters.length)
    return scope.captured.map Symbol.loading ++ [⟨.closure, [entry, scope.captured.length]⟩]
  | .call callee arguments, start => do
    let first ← callee.compose start
    let others ← Expr.composeAll arguments (start + size first)
    return first ++ others ++ [⟨.call, [arguments.length]⟩]
  | .array elements, start => do
    let code ← Expr.composeAll elements start
    return code ++ [⟨.array, [elements.length]⟩]
  | .hash pairs, start => do
    let code ← Expr.composePairs pairs start
    return code ++ [⟨.hash, [2 * pairs.length]⟩]
  | .index collection position, start => do
    let first ← collection.compose start
    let second ← position.compose (start + size first)
    return first ++ second ++ [⟨.index, []⟩]

/-- The code of a statement; the value of an expression is left to the `ending`. -/
def Stmt.compose : Stmt → Ending → Nat → Composer (List Instruction)
  | .eval expr, ending, start => do
    let code ← expr.compose start
    return code ++ ending.instructions
  | .bind name value, _, start => do
    let symbol ← define name
    let code ← value.compose start
    return code ++ [symbol.storing]
  | .ret value, _, start => do
    let code ← value.compose start
    return code ++ [⟨.returnValue, []⟩]

/-- The code of statements in order. The `ending` is for the last of them. -/
def Stmt.composeAll : List Stmt → Ending → Nat → Composer (List Instruction)
  | [], _, _ => pure []
  | stmt :: rest, ending, start => do
    let first ← stmt.compose (if rest.isEmpty then ending else .discard) start
    let others ← Stmt.composeAll rest ending (start + size first)
    return first ++ others

def Expr.composeAll : List Expr → Nat → Composer (List Instruction)
  | [], _ => pure []
  | expr :: rest, start => do
    let first ← expr.compose start
    let others ← Expr.composeAll rest (start + size first)
    return first ++ others

def Expr.composePairs : List (Expr × Expr) → Nat → Composer (List Instruction)
  | [], _ => pure []
  | (key, value) :: rest, start => do
    let first ← key.compose start
    let second ← value.compose (start + size first)
    let others ← Expr.composePairs rest (start + size first + size second)
    return first ++ second ++ others

end

/-- A program in code of its own, with nothing but the provided functions before it. -/
structure Composed where
  code : List Instruction
  outline : Outline

/-- The code of a whole program, if all its names stand for something and all its operators are
known. -/
def Program.compose (program : Program) : Except CompileError Composed :=
  match Stmt.composeAll program.statements .discard 0 { scopes := Builder.bindBuiltins {} } with
  | .ok code outline => .ok ⟨code, outline⟩
  | .error error _ => .error error

/-- The instructions of the program outside of its functions and inside of them. -/
def Composed.instructions (composed : Composed) : List Instruction :=
  composed.code ++ composed.outline.pieces.toList.flatMap Piece.code

/-- The program in bytes. -/
def Composed.bytecode (composed : Composed) : Bytecode :=
  ⟨(encodeAll composed.code).toArray, composed.outline.constants⟩

end StackScript
