import StackScript.Program

/-!
How much room a program needs on the stack, told from its text. What is computed in several parts
holds the values of the parts that are done with, one slot each, while the next one is computed. The
order is that of the code, in which the right side of `<` comes first.
-/

set_option autoImplicit false
set_option relaxedAutoImplicit false

namespace StackScript

mutual

/-- How many slots an expression needs, those in function bodies apart. -/
def Expr.need : Expr → Nat
  | .int _ | .str _ | .bool _ | .ident _ | .function _ _ _ => 1
  | .unary _ operand => operand.need
  | .binary op left right =>
    if op = "<" then max right.need (1 + left.need) else max left.need (1 + right.need)
  | .branch condition consequence none =>
    max 1 (max condition.need (Stmt.needAll consequence))
  | .branch condition consequence (some alternative) =>
    max 1 (max condition.need (max (Stmt.needAll consequence) (Stmt.needAll alternative)))
  | .call callee arguments => max 1 (max callee.need (Expr.needFrom 1 arguments))
  | .array elements => max 1 (Expr.needFrom 0 elements)
  | .hash pairs => max 1 (Expr.needPairs 0 pairs)
  | .index collection position => max collection.need (1 + position.need)

def Stmt.need : Stmt → Nat
  | .bind _ value | .ret value => value.need
  | .eval expr => expr.need

/-- Statements come one after the other, and none leaves a value to the next. -/
def Stmt.needAll : List Stmt → Nat
  | [] => 0
  | stmt :: rest => max stmt.need (Stmt.needAll rest)

/-- Expressions whose values are all held, behind so many values that are held already. -/
def Expr.needFrom (held : Nat) : List Expr → Nat
  | [] => 0
  | expr :: rest => max (held + expr.need) (Expr.needFrom (held + 1) rest)

/-- The keys and values of pairs, each key before its value. -/
def Expr.needPairs (held : Nat) : List (Expr × Expr) → Nat
  | [] => 0
  | (key, value) :: rest =>
    max (held + key.need) (max (held + 1 + value.need) (Expr.needPairs (held + 2) rest))

end

mutual

/-- There is no `if` and no `return` in the expression, so that all its code is run in order. -/
def Expr.straight : Expr → Bool
  | .int _ | .str _ | .bool _ | .ident _ => true
  | .unary _ operand => operand.straight
  | .binary _ left right => left.straight && right.straight
  | .branch _ _ _ => false
  | .function _ body _ => Stmt.straightAll body
  | .call callee arguments => callee.straight && Expr.straightAll arguments
  | .array elements => Expr.straightAll elements
  | .hash pairs => Expr.straightPairs pairs
  | .index collection position => collection.straight && position.straight

def Stmt.straight : Stmt → Bool
  | .bind _ value => value.straight
  | .ret _ => false
  | .eval expr => expr.straight

def Stmt.straightAll : List Stmt → Bool
  | [] => true
  | stmt :: rest => stmt.straight && Stmt.straightAll rest

def Expr.straightAll : List Expr → Bool
  | [] => true
  | expr :: rest => expr.straight && Expr.straightAll rest

def Expr.straightPairs : List (Expr × Expr) → Bool
  | [] => true
  | (key, value) :: rest => key.straight && value.straight && Expr.straightPairs rest

end

end StackScript
