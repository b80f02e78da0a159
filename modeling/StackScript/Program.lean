/-!
Programs as trees. Operators are kept as written; which of them are known is decided when code is
generated for them.
-/

set_option autoImplicit false
set_option relaxedAutoImplicit false

namespace StackScript

mutual

inductive Expr where
  | ident (name : String)
  | int (value : Int64)
  | str (content : String)
  | bool (value : Bool)
  | unary (op : String) (operand : Expr)
  | binary (op : String) (left right : Expr)
  | branch (condition : Expr) (consequence : List Stmt) (alternative : Option (List Stmt))
  /-- A function literal; it has a name if it is the value of a `let`, and may call itself by
  it. -/
  | function (parameters : List String) (body : List Stmt) (name : Option String)
  | call (callee : Expr) (arguments : List Expr)
  | array (elements : List Expr)
  | hash (pairs : List (Expr × Expr))
  | index (collection position : Expr)

inductive Stmt where
  | bind (name : String) (value : Expr)
  | ret (value : Expr)
  /-- An expression for its effects; as the last one of a body it is the body's value. -/
  | eval (expr : Expr)

end

instance : Inhabited Expr := ⟨.bool false⟩

instance : Inhabited Stmt := ⟨.eval default⟩

structure Program where
  statements : List Stmt
  deriving Inhabited

end StackScript
