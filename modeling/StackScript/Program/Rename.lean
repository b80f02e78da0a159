import StackScript.Bytecode.Builder
import StackScript.Program

/-!
Names of a program exchanged for other ones: those that it uses, those of its `let`s, the parameters
of its functions and the names that function literals carry. Texts are no names.
-/

set_option autoImplicit false
set_option relaxedAutoImplicit false

namespace StackScript

mutual

def Expr.rename (rename : String → String) : Expr → Expr
  | .ident name => .ident (rename name)
  | .int value => .int value
  | .str content => .str content
  | .bool value => .bool value
  | .unary op operand => .unary op (operand.rename rename)
  | .binary op left right => .binary op (left.rename rename) (right.rename rename)
  | .branch condition consequence none =>
    .branch (condition.rename rename) (Stmt.renameAll rename consequence) none
  | .branch condition consequence (some alternative) =>
    .branch (condition.rename rename) (Stmt.renameAll rename consequence)
      (some (Stmt.renameAll rename alternative))
  | .function parameters body name =>
    .function (parameters.map rename) (Stmt.renameAll rename body) (name.map rename)
  | .call callee arguments => .call (callee.rename rename) (Expr.renameAll rename arguments)
  | .array elements => .array (Expr.renameAll rename elements)
  | .hash pairs => .hash (Expr.renamePairs rename pairs)
  | .index collection position => .index (collection.rename rename) (position.rename rename)

def Stmt.rename (rename : String → String) : Stmt → Stmt
  | .bind name value => .bind (rename name) (value.rename rename)
  | .ret value => .ret (value.rename rename)
  | .eval expr => .eval (expr.rename rename)

def Stmt.renameAll (rename : String → String) : List Stmt → List Stmt
  | [] => []
  | stmt :: rest => stmt.rename rename :: Stmt.renameAll rename rest

def Expr.renameAll (rename : String → String) : List Expr → List Expr
  | [] => []
  | expr :: rest => expr.rename rename :: Expr.renameAll rename rest

def Expr.renamePairs (rename : String → String) : List (Expr × Expr) → List (Expr × Expr)
  | [] => []
  | (key, value) :: rest =>
    (key.rename rename, value.rename rename) :: Expr.renamePairs rename rest

end

def Program.rename (rename : String → String) (program : Program) : Program :=
  ⟨Stmt.renameAll rename program.statements⟩

/-! ### The names in a program -/

mutual

/-- The names that stand in an expression. -/
def Expr.mentioned : Expr → List String
  | .ident name => [name]
  | .int _ | .str _ | .bool _ => []
  | .unary _ operand => operand.mentioned
  | .binary _ left right => left.mentioned ++ right.mentioned
  | .branch condition consequence none => condition.mentioned ++ Stmt.mentionedAll consequence
  | .branch condition consequence (some alternative) =>
    condition.mentioned ++ Stmt.mentionedAll consequence ++ Stmt.mentionedAll alternative
  | .function parameters body name => parameters ++ Stmt.mentionedAll body ++ name.toList
  | .call callee arguments => callee.mentioned ++ Expr.mentionedAll arguments
  | .array elements => Expr.mentionedAll elements
  | .hash pairs => Expr.mentionedPairs pairs
  | .index collection position => collection.mentioned ++ position.mentioned

def Stmt.mentioned : Stmt → List String
  | .bind name value => name :: value.mentioned
  | .ret value => value.mentioned
  | .eval expr => expr.mentioned

def Stmt.mentionedAll : List Stmt → List String
  | [] => []
  | stmt :: rest => stmt.mentioned ++ Stmt.mentionedAll rest

def Expr.mentionedAll : List Expr → List String
  | [] => []
  | expr :: rest => expr.mentioned ++ Expr.mentionedAll rest

def Expr.mentionedPairs : List (Expr × Expr) → List String
  | [] => []
  | (key, value) :: rest => key.mentioned ++ value.mentioned ++ Expr.mentionedPairs rest

end

/-- The names that stand in a program. -/
def Program.mentioned (program : Program) : List String :=
  Stmt.mentionedAll program.statements

/-! ### Names in scopes and errors -/

def Symbol.rename (rename : String → String) (symbol : Symbol) : Symbol :=
  { symbol with name := rename symbol.name }

def Scope.rename (rename : String → String) (scope : Scope) : Scope :=
  { scope with
    bindings := scope.bindings.map (Symbol.rename rename)
    captured := scope.captured.map (Symbol.rename rename) }

def Scopes.rename (rename : String → String) (scopes : Scopes) : Scopes :=
  ⟨scopes.current.rename rename, scopes.outer.map (Scope.rename rename)⟩

def CompileError.rename (rename : String → String) : CompileError → CompileError
  | .undefinedVariable name => .undefinedVariable (rename name)
  | other => other

def Builder.rename (rename : String → String) (builder : Builder) : Builder :=
  { builder with scopes := builder.scopes.rename rename }

end StackScript
