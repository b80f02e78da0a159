import Mathlib.Data.Int.ModEq
import StackScript.Program

/-!
Arithmetic on literals, read in two ways: as an expression of the language (`Arithmetic.expr`), and
as a number without bounds (`Arithmetic.exact`). Only a quotient looks at the 64 bits that are left
of its operands.
-/

set_option autoImplicit false
set_option relaxedAutoImplicit false

namespace StackScript

namespace Arithmetic

inductive Operation where
  | sum
  | difference
  | product
  | quotient
  deriving DecidableEq, Repr

def Operation.sign : Operation → String
  | sum => "+"
  | difference => "-"
  | product => "*"
  | quotient => "/"

/-- The exact result. A quotient is that of the numbers of 64 bits that are congruent to the
operands, cut off towards zero. -/
def Operation.apply : Operation → Int → Int → Int
  | sum, left, right => left + right
  | difference, left, right => left - right
  | product, left, right => left * right
  | quotient, left, right => (left.bmod (2 ^ 64)).tdiv (right.bmod (2 ^ 64))

end Arithmetic

/-- Literals, put together with the four operations and the sign. -/
inductive Arithmetic where
  | literal (value : Int64)
  | negation (operand : Arithmetic)
  | binary (operation : Arithmetic.Operation) (left right : Arithmetic)
  deriving DecidableEq, Repr

namespace Arithmetic

def expr : Arithmetic → Expr
  | literal value => .int value
  | negation operand => .unary "-" operand.expr
  | binary operation left right => .binary operation.sign left.expr right.expr

def exact : Arithmetic → Int
  | literal value => value.toInt
  | negation operand => -operand.exact
  | binary operation left right => operation.apply left.exact right.exact

/-- What is divided by, in all quotients at any depth. -/
def divisors : Arithmetic → List Arithmetic
  | literal _ => []
  | negation operand => operand.divisors
  | binary .quotient left right => left.divisors ++ right.divisors ++ [right]
  | binary _ left right => left.divisors ++ right.divisors

/-- Nothing is left of the number in 64 bits. -/
def Vanishes (arithmetic : Arithmetic) : Prop :=
  arithmetic.exact ≡ 0 [ZMOD 2 ^ 64]

end Arithmetic

end StackScript
