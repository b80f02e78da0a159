import StackScript.Builtin
import StackScript.Program

/-!
What the names of a program denote, told from its text alone. Only function literals open scopes. A
name denotes the latest binding made so far, in text order, in the innermost scope around it that
has one; the variables that a function uses from functions around it are noted in order of first
use.
-/

set_option autoImplicit false
set_option relaxedAutoImplicit false

namespace StackScript

/-- What a name denotes. Functions are told apart by their depth: so many are around each. -/
inductive Variable where
  | global (slot : Nat)
  | builtin (builtin : Builtin)
  /-- A parameter or a `let` of the function at that depth. -/
  | slot (depth slot : Nat)
  /-- The function at that depth, under its own name. -/
  | self (depth : Nat)
  deriving DecidableEq, Repr, Inhabited

/-- Whether it belongs to a function around those at the depth. -/
def Variable.isOuter (depth : Nat) : Variable → Bool
  | slot other _ | self other => other < depth
  | _ => false

/-- A name in the text with what it denotes there. -/
structure Use where
  name : String
  meaning : Variable
  deriving DecidableEq, Repr, Inhabited

/-- The names bound so far in one scope, the latest first. -/
structure Names where
  bound : List Use := []
  /-- How many slots have been given out. -/
  slots : Nat := 0
  /-- The variables of functions around that were used so far, in order of first use. -/
  captures : List Use := []
  deriving Repr, Inhabited

namespace Names

def find? (names : Names) (name : String) : Option Variable :=
  (names.bound.find? fun use ↦ use.name = name).map Use.meaning

def bind (names : Names) (name : String) (meaning : Variable) : Names :=
  { names with bound := ⟨name, meaning⟩ :: names.bound }

/-- Notes a use in the scope of the function at the depth, or further inside. -/
def note (depth : Nat) (use : Use) (names : Names) : Names :=
  if use.meaning.isOuter depth ∧ use ∉ names.captures then
    { names with captures := names.captures ++ [use] }
  else names

end Names

/-- The scopes around a place in the text, the innermost apart and the others nearest first, and
the number of literals before it. -/
structure Context where
  names : Names := {}
  outer : List Names := []
  literals : Nat := 0
  deriving Repr, Inhabited

namespace Context

def depth (context : Context) : Nat :=
  context.outer.length

/-- What the name denotes in the innermost of these scopes that binds it. -/
def findIn (name : String) : List Names → Option Variable
  | [] => none
  | names :: outer =>
    match names.find? name with
    | some meaning => some meaning
    | none => findIn name outer

def find? (context : Context) (name : String) : Option Variable :=
  findIn name (context.names :: context.outer)

/-- Notes a use in all these scopes. -/
def noteIn (use : Use) : List Names → List Names
  | [] => []
  | names :: outer => names.note outer.length use :: noteIn use outer

/-- Notes the use of a name in all scopes around it. -/
def use (context : Context) (use : Use) : Context :=
  { context with
    names := context.names.note context.depth use
    outer := noteIn use context.outer }

/-- Gives a name a new slot: a global outside of all functions. -/
def define (context : Context) (name : String) : Variable × Context :=
  let meaning : Variable :=
    if context.outer.isEmpty then .global context.names.slots
    else .slot context.depth context.names.slots
  (meaning, { context with
    names := { context.names.bind name meaning with slots := context.names.slots + 1 } })

/-- The begin of a function literal: its own name is bound first, then its parameters. -/
def enter (context : Context) (name : Option String) (parameters : List String) : Context :=
  let inner : Context :=
    { context with names := {}, outer := context.names :: context.outer }
  let inner :=
    match name with
    | some name => { inner with names := inner.names.bind name (.self inner.depth) }
    | none => inner
  parameters.foldl (fun context parameter ↦ (context.define parameter).2) inner

/-- The place behind a function literal that ends here. -/
def leave (context : Context) : Context :=
  { context with names := context.outer.head?.getD {}, outer := context.outer.tail }

def countLiteral (context : Context) : Context :=
  { context with literals := context.literals + 1 }

/-- The begin of a program: the provided functions are bound. -/
def top : Context :=
  { names := Builtin.all.foldl
      (fun names builtin ↦ names.bind builtin.name (.builtin builtin)) {} }

end Context

/-! ## Places behind parts of a program -/

mutual

/-- The place behind an expression. The right operand of `<` counts as the first one. -/
def Expr.after : Expr → Context → Context
  | .int _, context | .str _, context => context.countLiteral
  | .bool _, context => context
  | .ident name, context =>
    match context.find? name with
    | some meaning => context.use ⟨name, meaning⟩
    | none => context
  | .unary _ operand, context => operand.after context
  | .binary op left right, context =>
    if op = "<" then left.after (right.after context) else right.after (left.after context)
  | .branch condition consequence alternative, context =>
    let context := Stmt.afterAll consequence (condition.after context)
    match alternative with
    | some block => Stmt.afterAll block context
    | none => context
  | .function parameters body name, context =>
    (Stmt.afterAll body (context.enter name parameters)).leave.countLiteral
  | .call callee arguments, context => Expr.afterAll arguments (callee.after context)
  | .array elements, context => Expr.afterAll elements context
  | .hash pairs, context => Expr.afterPairs pairs context
  | .index collection position, context => position.after (collection.after context)

/-- The place behind a statement. A `let` binds its name before its value. -/
def Stmt.after : Stmt → Context → Context
  | .bind name value, context => value.after (context.define name).2
  | .ret value, context => value.after context
  | .eval expr, context => expr.after context

def Stmt.afterAll : List Stmt → Context → Context
  | [], context => context
  | stmt :: rest, context => Stmt.afterAll rest (stmt.after context)

def Expr.afterAll : List Expr → Context → Context
  | [], context => context
  | expr :: rest, context => Expr.afterAll rest (expr.after context)

def Expr.afterPairs : List (Expr × Expr) → Context → Context
  | [], context => context
  | (key, value) :: rest, context => Expr.afterPairs rest (value.after (key.after context))

end

end StackScript
