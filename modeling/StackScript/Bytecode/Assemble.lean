import StackScript.Bytecode.Generate
import StackScript.Proofs.Instruction.Stream

/-!
Code for programs, composed of the code of their parts. Nothing that was written is changed: the
target of a jump is computed from the lengths of the parts, and what becomes of the value of a last
expression is decided before its code is written.
-/

set_option autoImplicit false
set_option relaxedAutoImplicit false

namespace StackScript

open Instruction (size encodeAll)

/-- What the code of a part leaves to the code of the next. -/
structure Draft where
  constants : Array Value := #[]
  scopes : Scopes := {}
  deriving Inhabited

abbrev Assembly := EStateM CompileError Draft

/-- What happens to the value of a last expression statement. -/
inductive Ending where
  | discard
  | keep
  | giveBack
  deriving DecidableEq, Repr

def Ending.instructions : Ending → List Instruction
  | discard => [⟨.pop, []⟩]
  | keep => []
  | giveBack => [⟨.returnValue, []⟩]

/-- Whether the last statement is an expression, so that there is a value at the end. -/
def Stmt.yields (stmts : List Stmt) : Bool :=
  match stmts.getLast? with
  | some (.eval _) => true
  | _ => false

/-- Whether a body ends with an instruction that returns, if the value of a last expression is given
back. -/
def Stmt.returns (body : List Stmt) : Bool :=
  match body.getLast? with
  | some (.eval _) | some (.ret _) => true
  | _ => false

/-- The instruction that loads what a symbol stands for. -/
def Symbol.loading (symbol : Symbol) : Instruction :=
  match symbol.place with
  | .global => ⟨.getGlobal, [symbol.index]⟩
  | .localSlot => ⟨.getLocal, [symbol.index]⟩
  | .builtin => ⟨.getBuiltin, [symbol.index]⟩
  | .free => ⟨.getFree, [symbol.index]⟩
  | .function => ⟨.currentClosure, []⟩

namespace Assembly

def addConstant (constant : Label → Value) : Assembly Nat := fun draft ↦
  let entry := draft.constants.size
  .ok entry { draft with constants := draft.constants.push (constant (.literal entry)) }

/-- One instruction, if its operands fit. -/
def instruction (opcode : Opcode) (operands : List Nat) : Assembly (List Instruction) := fun draft ↦
  match Instruction.oversized? opcode.widths operands with
  | some operand => .error (.operandTooLarge opcode operand) draft
  | none => .ok [⟨opcode, operands⟩] draft

def define (name : String) : Assembly Symbol := fun draft ↦
  let (symbol, scopes) := draft.scopes.define name
  .ok symbol { draft with scopes := scopes }

def resolve (name : String) : Assembly Symbol := fun draft ↦
  match draft.scopes.resolve name with
  | some (symbol, scopes) => .ok symbol { draft with scopes := scopes }
  | none => .error (.undefinedVariable name) draft

def load (symbol : Symbol) : Assembly (List Instruction) :=
  match symbol.place with
  | .global => instruction .getGlobal [symbol.index]
  | .localSlot => instruction .getLocal [symbol.index]
  | .builtin => instruction .getBuiltin [symbol.index]
  | .free => instruction .getFree [symbol.index]
  | .function => instruction .currentClosure []

def loadAll : List Symbol → Assembly (List Instruction)
  | [] => pure []
  | symbol :: rest => do
    let first ← load symbol
    let others ← loadAll rest
    return first ++ others

/-- The code of a body that returns null unless it returns before its end. -/
def endBody (returns : Bool) (code : List Instruction) : Assembly (List Instruction) := do
  if returns then return code else return code ++ (← instruction .ret [])

/-- The scope of a function inside the current one, with its own name and its parameters. -/
def enter (name : Option String) (parameters : List String) (scopes : Scopes) : Scopes :=
  let scopes := scopes.enclose
  let scopes :=
    match name with
    | some name => (scopes.defineFunction name).2
    | none => scopes
  parameters.foldl (fun scopes parameter ↦ (scopes.define parameter).2) scopes

/-- What a body yields inside a function, with the function's scope at the end. The scopes are left
again, also after an error. -/
def inFunction (name : Option String) (parameters : List String)
    (body : Assembly (List Instruction)) : Assembly (List Instruction × Scope) := fun draft ↦
  match body { draft with scopes := enter name parameters draft.scopes } with
  | .ok code draft =>
    .ok (code, draft.scopes.current) { draft with scopes := draft.scopes.leave?.getD {} }
  | .error error draft => .error error { draft with scopes := draft.scopes.leave?.getD {} }

end Assembly

open Assembly

mutual

/-- The code of an expression that begins at the offset `start`. -/
def Expr.assemble : Expr → Nat → Assembly (List Instruction)
  | .int value, _ => do
    let entry ← addConstant fun _ ↦ .integer value
    instruction .constant [entry]
  | .str content, _ => do
    let entry ← addConstant fun label ↦ .string label content
    instruction .constant [entry]
  | .bool value, _ => instruction (if value then .true else .false) []
  | .ident name, _ => do load (← resolve name)
  | .unary op operand, start => do
    let code ← operand.assemble start
    match Opcode.ofPrefix? op with
    | some opcode => return code ++ (← instruction opcode [])
    | none => throw (.unknownPrefixOperator op)
  | .binary op left right, start => do
    if op = "<" then
      let second ← right.assemble start
      let first ← left.assemble (start + size second)
      return second ++ first ++ (← instruction .greaterThan [])
    else
      let first ← left.assemble start
      let second ← right.assemble (start + size first)
      match Opcode.ofInfix? op with
      | some opcode => return first ++ second ++ (← instruction opcode [])
      | none => throw (.unknownInfixOperator op)
  | .branch condition consequence alternative, start => do
    let test ← condition.assemble start
    let first ← Stmt.assembleAll consequence .keep (start + size test + 3)
    let otherwise := start + size test + 3 + size first + 3
    let pass ← instruction .jumpNotTruthy [otherwise]
    let second ←
      match alternative with
      | some block => Stmt.assembleAll block .keep otherwise
      | none => instruction .null []
    let finish ← instruction .jump [otherwise + size second]
    return test ++ pass ++ first ++ finish ++ second
  | .function parameters body name, _ => do
    let (code, scope) ← inFunction name parameters do
      endBody (Stmt.returns body) (← Stmt.assembleAll body .giveBack 0)
    let loads ← loadAll scope.captured
    let entry ← addConstant fun label ↦
      .routine label ⟨(encodeAll code).toArray, scope.definitions, parameters.length⟩
    return loads ++ (← instruction .closure [entry, scope.captured.length])
  | .call callee arguments, start => do
    let first ← callee.assemble start
    let others ← Expr.assembleAll arguments (start + size first)
    return first ++ others ++ (← instruction .call [arguments.length])
  | .array elements, start => do
    let code ← Expr.assembleAll elements start
    return code ++ (← instruction .array [elements.length])
  | .hash pairs, start => do
    let code ← Expr.assemblePairs pairs start
    return code ++ (← instruction .hash [2 * pairs.length])
  | .index collection position, start => do
    let first ← collection.assemble start
    let second ← position.assemble (start + size first)
    return first ++ second ++ (← instruction .index [])

/-- The code of a statement; the value of an expression is left to the `ending`. -/
def Stmt.assemble : Stmt → Ending → Nat → Assembly (List Instruction)
  | .eval expr, ending, start => do
    let code ← expr.assemble start
    return code ++ ending.instructions
  | .bind name value, _, start => do
    let symbol ← define name
    let code ← value.assemble start
    let opcode := if symbol.place = .global then .setGlobal else .setLocal
    return code ++ (← instruction opcode [symbol.index])
  | .ret value, _, start => do
    let code ← value.assemble start
    return code ++ (← instruction .returnValue [])

/-- The code of statements in order. The `ending` is for the last of them. -/
def Stmt.assembleAll : List Stmt → Ending → Nat → Assembly (List Instruction)
  | [], _, _ => pure []
  | stmt :: rest, ending, start => do
    let first ← stmt.assemble (if rest.isEmpty then ending else .discard) start
    let others ← Stmt.assembleAll rest ending (start + size first)
    return first ++ others

def Expr.assembleAll : List Expr → Nat → Assembly (List Instruction)
  | [], _ => pure []
  | expr :: rest, start => do
    let first ← expr.assemble start
    let others ← Expr.assembleAll rest (start + size first)
    return first ++ others

def Expr.assemblePairs : List (Expr × Expr) → Nat → Assembly (List Instruction)
  | [], _ => pure []
  | (key, value) :: rest, start => do
    let first ← key.assemble start
    let second ← value.assemble (start + size first)
    let others ← Expr.assemblePairs rest (start + size first + size second)
    return first ++ second ++ others

end

end StackScript
