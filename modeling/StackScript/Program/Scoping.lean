import StackScript.Bytecode.Generate

/-!
Which names a program may use, and which operators there are. A name is known behind the `let` that
binds it, also in the value of that `let`, to the end of the function it stands in; a block has no
names of its own. The order is that of the code, in which the right side of `<` comes first.
-/

set_option autoImplicit false
set_option relaxedAutoImplicit false

namespace StackScript

/-! ### Names -/

mutual

/-- The names that are known behind an expression, unless it uses one that is not known there. -/
def Expr.names? : Expr → List String → Option (List String)
  | .int _, known | .str _, known | .bool _, known => some known
  | .ident name, known => if name ∈ known then some known else none
  | .unary _ operand, known => operand.names? known
  | .binary op left right, known =>
    if op = "<" then (right.names? known).bind fun known ↦ left.names? known
    else (left.names? known).bind fun known ↦ right.names? known
  | .branch condition consequence none, known =>
    (condition.names? known).bind fun known ↦ Stmt.namesAll? consequence known
  | .branch condition consequence (some alternative), known =>
    (condition.names? known).bind fun known ↦ (Stmt.namesAll? consequence known).bind fun known ↦
      Stmt.namesAll? alternative known
  | .function parameters body name, known =>
    (Stmt.namesAll? body (parameters ++ (name.toList ++ known))).map fun _ ↦ known
  | .call callee arguments, known =>
    (callee.names? known).bind fun known ↦ Expr.namesAll? arguments known
  | .array elements, known => Expr.namesAll? elements known
  | .hash pairs, known => Expr.namesPairs? pairs known
  | .index collection position, known =>
    (collection.names? known).bind fun known ↦ position.names? known

def Stmt.names? : Stmt → List String → Option (List String)
  | .bind name value, known => value.names? (name :: known)
  | .ret value, known => value.names? known
  | .eval expr, known => expr.names? known

def Stmt.namesAll? : List Stmt → List String → Option (List String)
  | [], known => some known
  | stmt :: rest, known => (stmt.names? known).bind fun known ↦ Stmt.namesAll? rest known

def Expr.namesAll? : List Expr → List String → Option (List String)
  | [], known => some known
  | expr :: rest, known => (expr.names? known).bind fun known ↦ Expr.namesAll? rest known

def Expr.namesPairs? : List (Expr × Expr) → List String → Option (List String)
  | [], known => some known
  | (key, value) :: rest, known =>
    (key.names? known).bind fun known ↦ (value.names? known).bind fun known ↦
      Expr.namesPairs? rest known

end

/-- Every name that the program uses is known where it stands. -/
def Program.Scoped (program : Program) : Prop :=
  (Stmt.namesAll? program.statements (Builtin.all.map Builtin.name)).isSome

instance (program : Program) : Decidable program.Scoped :=
  inferInstanceAs (Decidable (_ = true))

/-! ### Operators -/

mutual

/-- Whether all operators of an expression are known, those in its functions included. -/
def Expr.operable : Expr → Bool
  | .int _ | .str _ | .bool _ | .ident _ => true
  | .unary op operand => operand.operable && (Opcode.ofPrefix? op).isSome
  | .binary op left right =>
    left.operable && right.operable && (op == "<" || (Opcode.ofInfix? op).isSome)
  | .branch condition consequence none => condition.operable && Stmt.operableAll consequence
  | .branch condition consequence (some alternative) =>
    condition.operable && Stmt.operableAll consequence && Stmt.operableAll alternative
  | .function _ body _ => Stmt.operableAll body
  | .call callee arguments => callee.operable && Expr.operableAll arguments
  | .array elements => Expr.operableAll elements
  | .hash pairs => Expr.operablePairs pairs
  | .index collection position => collection.operable && position.operable

def Stmt.operable : Stmt → Bool
  | .bind _ value => value.operable
  | .ret value => value.operable
  | .eval expr => expr.operable

def Stmt.operableAll : List Stmt → Bool
  | [] => true
  | stmt :: rest => stmt.operable && Stmt.operableAll rest

def Expr.operableAll : List Expr → Bool
  | [] => true
  | expr :: rest => expr.operable && Expr.operableAll rest

def Expr.operablePairs : List (Expr × Expr) → Bool
  | [] => true
  | (key, value) :: rest => key.operable && value.operable && Expr.operablePairs rest

end

/-- Every operator of the program is known. -/
def Program.Operable (program : Program) : Prop :=
  Stmt.operableAll program.statements

instance (program : Program) : Decidable program.Operable :=
  inferInstanceAs (Decidable (_ = true))

end StackScript
