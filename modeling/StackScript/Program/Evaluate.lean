import StackScript.Bytecode.Generate
import StackScript.Machine.Operation
import StackScript.Program.Context

/-!
Programs evaluated as trees. Variables are found as the text tells, an expression yields a value,
and a `return` ends the function around it. Limits and errors are those of the machine: at most
`frameLimit` functions can be at work, and `stackSize` slots are there for the variables of
functions and for the values that wait to be used.
-/

set_option autoImplicit false
set_option relaxedAutoImplicit false

namespace StackScript

/-- A function literal, with the place in the text where its body begins. -/
structure Function where
  parameters : List String
  body : List Stmt
  context : Context
  deriving Inhabited

namespace Function

/-- The names of the function at the end of its body. -/
def names (function : Function) : Names :=
  (Stmt.afterAll function.body function.context).names

/-- One slot for each parameter and each `let`. -/
def slots (function : Function) : Nat :=
  function.names.slots

/-- The variables of functions around that are copied when the literal is evaluated. -/
def captures (function : Function) : List Use :=
  function.names.captures

end Function

/-- What evaluation changes. -/
structure World where
  globals : Nat → Option (Value Function) := fun _ ↦ none
  /-- The slots of the function at work. -/
  locals : List (Option (Value Function)) := []
  /-- The value of the last expression statement that was done with. -/
  discarded : Option (Value Function) := none
  /-- The number of the next label. -/
  serial : Nat := 0
  /-- What was printed. -/
  output : String := ""
  deriving Inhabited

/-- Why evaluation does not come to the end of a part. -/
inductive Stop where
  | returned (value : Value Function)
  | failed (error : RunError)
  /-- There is nothing to go on with; programs that compile never come to this. -/
  | stuck

abbrev Eval := EStateM Stop World

/-- The function at work. -/
structure Activation where
  depth : Nat := 0
  self : Value Function := .null
  captures : List Use := []
  /-- The values of the captures, as they were when the function was made. -/
  captured : List (Value Function) := []

namespace Eval

def fail {α : Type} (error : RunError) : Eval α :=
  throw (.failed error)

def ofExcept {α : Type} : Except RunError α → Eval α
  | .ok value => pure value
  | .error error => fail error

/-- A value that waits above so many slots. -/
def hold (height : Nat) (value : Value Function) : Eval (Value Function) :=
  if stackSize ≤ height then fail .stackOverflow else pure value

def freshLabel : Eval Label := fun world ↦
  .ok (.heap world.serial) { world with serial := world.serial + 1 }

def print (text : String) : Eval Unit := fun world ↦
  .ok () { world with output := world.output ++ text }

def discard (value : Value Function) : Eval Unit := fun world ↦
  .ok () { world with discarded := some value }

/-! ## Variables -/

def readGlobal (slot : Nat) : Eval (Value Function) := fun world ↦
  match world.globals slot with
  | some value => .ok value world
  | none => .error (.failed (.uninitializedGlobal slot)) world

def readLocal (slot : Nat) : Eval (Value Function) := fun world ↦
  match world.locals[slot]? with
  | some (some value) => .ok value world
  | _ => .error (.failed (.uninitializedLocal slot)) world

/-- A value that the function copied when it was made. -/
def readCaptured (activation : Activation) (use : Use) : Eval (Value Function) :=
  match activation.captured[activation.captures.idxOf use]? with
  | some value => pure value
  | none => throw .stuck

/-- The value of a variable as the function at work sees it. -/
def read (activation : Activation) (use : Use) : Eval (Value Function) :=
  match use.meaning with
  | .global slot => readGlobal slot
  | .builtin builtin => pure (.builtin builtin)
  | .slot depth slot =>
    if depth = activation.depth then readLocal slot else readCaptured activation use
  | .self depth =>
    if depth = activation.depth then pure activation.self else readCaptured activation use

def load (activation : Activation) (height : Nat) (use : Use) : Eval (Value Function) := do
  hold height (← read activation use)

def loadAll (activation : Activation) (height : Nat) : List Use → Eval (List (Value Function))
  | [] => pure []
  | use :: rest => do
    let value ← load activation height use
    return value :: (← loadAll activation (height + 1) rest)

def write (meaning : Variable) (value : Value Function) : Eval Unit := fun world ↦
  match meaning with
  | .global slot =>
    .ok () { world with
      globals := fun other ↦ if other = slot then some value else world.globals other }
  | .slot _ slot => .ok () { world with locals := world.locals.set slot (some value) }
  | _ => .error .stuck world

/-! ## Operations -/

/-- Arithmetic labels its result, if that needs one; comparisons need none. -/
def operate (op : Opcode) (left right : Value Function) : Eval (Value Function) :=
  match op with
  | .add | .sub | .mul | .div => do ofExcept (left.operate (← freshLabel) op right)
  | op => do return .boolean (← ofExcept (left.compare op right))

def operatePrefix (op : Opcode) (value : Value Function) : Eval (Value Function) :=
  match op with
  | .bang => pure (.boolean !value.isTruthy)
  | _ => ofExcept value.negate

/-- Runs a body with its own slots. Null is the value of a body that comes to its end without
one. -/
def activate (locals : List (Option (Value Function)))
    (body : Eval (Option (Value Function))) : Eval (Value Function) := fun world ↦
  match body { world with locals := locals } with
  | .ok value after => .ok (value.getD .null) { after with locals := world.locals }
  | .error (.returned value) after => .ok value { after with locals := world.locals }
  | .error stop after => .error stop { after with locals := world.locals }

end Eval

/-- What a call does with the callee, the arguments and so many slots below the callee. -/
abbrev Caller := Value Function → List (Value Function) → Nat → Eval (Value Function)

open Eval

mutual

/-- The value of an expression at a place in the text, with so many slots below it. -/
def Expr.evaluate (call : Caller) (activation : Activation) :
    Expr → Context → Nat → Eval (Value Function)
  | .int value, _, height => hold height (.integer value)
  | .str content, context, height => hold height (.string (.literal context.literals) content)
  | .bool value, _, height => hold height (.boolean value)
  | .ident name, context, height =>
    match context.find? name with
    | some meaning => load activation height ⟨name, meaning⟩
    | none => throw .stuck
  | .unary op operand, context, height => do
    let value ← operand.evaluate call activation context height
    match Opcode.ofPrefix? op with
    | some opcode => operatePrefix opcode value
    | none => throw .stuck
  | .binary op left right, context, height => do
    if op = "<" then
      let second ← right.evaluate call activation context height
      let first ← left.evaluate call activation (right.after context) (height + 1)
      operate .greaterThan second first
    else
      let first ← left.evaluate call activation context height
      let second ← right.evaluate call activation (left.after context) (height + 1)
      match Opcode.ofInfix? op with
      | some opcode => operate opcode first second
      | none => throw .stuck
  | .branch condition consequence alternative, context, height => do
    let value ← condition.evaluate call activation context height
    let context := condition.after context
    if value.isTruthy then
      return (← Stmt.evaluateAll call activation consequence context height).getD .null
    else
      match alternative with
      | some block =>
        let context := Stmt.afterAll consequence context
        return (← Stmt.evaluateAll call activation block context height).getD .null
      | none => hold height .null
  | .function parameters body name, context, height => do
    let function : Function := ⟨parameters, body, context.enter name parameters⟩
    let captured ← loadAll activation height function.captures
    hold height (.closure (← freshLabel) function captured)
  | .call callee arguments, context, height => do
    let value ← callee.evaluate call activation context height
    let values ← Expr.evaluateAll call activation arguments (callee.after context) (height + 1)
    call value values height
  | .array elements, context, height => do
    let values ← Expr.evaluateAll call activation elements context height
    hold height (.array (← freshLabel) values)
  | .hash pairs, context, height => do
    let items ← Expr.evaluatePairs call activation pairs context height
    let entries ← ofExcept (Entries.addAll [] items)
    hold height (.hash (← freshLabel) entries)
  | .index collection position, context, height => do
    let first ← collection.evaluate call activation context height
    let second ← position.evaluate call activation (collection.after context) (height + 1)
    ofExcept (first.lookUp second)

/-- What a statement yields: the value of an expression. -/
def Stmt.evaluate (call : Caller) (activation : Activation) :
    Stmt → Context → Nat → Eval (Option (Value Function))
  | .eval expr, context, height => do
    return some (← expr.evaluate call activation context height)
  | .bind name value, context, height => do
    let (meaning, context) := context.define name
    write meaning (← value.evaluate call activation context height)
    return none
  | .ret value, context, height => do
    throw (.returned (← value.evaluate call activation context height))

/-- What the last one of the statements yields. The values of the others are discarded. -/
def Stmt.evaluateAll (call : Caller) (activation : Activation) :
    List Stmt → Context → Nat → Eval (Option (Value Function))
  | [], _, _ => return none
  | stmt :: rest, context, height => do
    let yielded ← stmt.evaluate call activation context height
    if rest.isEmpty then
      return yielded
    else
      if let some value := yielded then discard value
      Stmt.evaluateAll call activation rest (stmt.after context) height

def Expr.evaluateAll (call : Caller) (activation : Activation) :
    List Expr → Context → Nat → Eval (List (Value Function))
  | [], _, _ => return []
  | expr :: rest, context, height => do
    let value ← expr.evaluate call activation context height
    let values ← Expr.evaluateAll call activation rest (expr.after context) (height + 1)
    return value :: values

/-- The keys and values of the pairs, each key before its value. -/
def Expr.evaluatePairs (call : Caller) (activation : Activation) :
    List (Expr × Expr) → Context → Nat → Eval (List (Value Function))
  | [], _, _ => return []
  | (key, value) :: rest, context, height => do
    let first ← key.evaluate call activation context height
    let second ← value.evaluate call activation (key.after context) (height + 1)
    let others ← Expr.evaluatePairs call activation rest (value.after (key.after context))
      (height + 2)
    return first :: second :: others

end

/-- Calls a value while so many more functions can be at work. -/
def Eval.call : Nat → Caller
  | frames, .closure label function captured, arguments, height => do
    if arguments.length ≠ function.parameters.length then
      fail (.wrongArity function.parameters.length arguments.length)
    match frames with
    | 0 => fail .frameOverflow
    | frames + 1 =>
      if stackSize < height + 1 + function.slots then fail .stackOverflow
      let activation : Activation :=
        { depth := function.context.depth
          self := .closure label function captured
          captures := function.captures
          captured := captured }
      activate (arguments.map some ++ List.replicate (function.slots - arguments.length) none)
        (Stmt.evaluateAll (Eval.call frames) activation function.body function.context
          (height + 1 + function.slots))
  | _, .builtin builtin, arguments, _ => do
    print (builtin.printed arguments)
    return builtin.call (← freshLabel) arguments
  | _, callee, _, _ => fail (.notCallable callee.kind)

/-- Evaluates a whole program; a `return` outside of all functions ends it with a value. -/
def Program.evaluate (program : Program) : EStateM.Result Stop World Unit :=
  match Stmt.evaluateAll (Eval.call (frameLimit - 1)) {} program.statements .top 0 {} with
  | .ok (some value) world | .error (.returned value) world =>
    .ok () { world with discarded := some value }
  | .ok none world => .ok () world
  | .error stop world => .error stop world

end StackScript
