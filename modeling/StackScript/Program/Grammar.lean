import StackScript.Program.Parser

/-!
The language as a grammar: which tokens form which program. Expressions come in levels. An operator
of a level takes a left operand of its own level or a tighter one, and a right operand of a tighter
level, so operators of one level group to the left; parentheses form an expression of the tightest
level and leave no trace in the program. A function literal that is the whole value of a `let` takes
its name, and no other literal has one.
-/

set_option autoImplicit false
set_option relaxedAutoImplicit false

namespace StackScript

namespace Grammar

/-- What the outermost operator of an expression is, from the loosest on. Calls, indices and all
that stands without an operator are terms. -/
inductive Level where
  | equality
  | order
  | sum
  | product
  | sign
  | term
  deriving DecidableEq, Repr

namespace Level

def rank : Level → Nat
  | equality => 0
  | order => 1
  | sum => 2
  | product => 3
  | sign => 4
  | term => 5

instance : LE Level := ⟨fun first second ↦ first.rank ≤ second.rank⟩

instance : LT Level := ⟨fun first second ↦ first.rank < second.rank⟩

instance (first second : Level) : Decidable (first ≤ second) :=
  inferInstanceAs (Decidable (first.rank ≤ second.rank))

instance (first second : Level) : Decidable (first < second) :=
  inferInstanceAs (Decidable (first.rank < second.rank))

/-- The binary operators of a level, as tokens and as the program holds them. -/
def operators : Level → List (Token × String)
  | equality => [(.equal, "=="), (.notEqual, "!=")]
  | order => [(.less, "<"), (.greater, ">")]
  | sum => [(.plus, "+"), (.minus, "-")]
  | product => [(.asterisk, "*"), (.slash, "/")]
  | sign | term => []

end Level

/-- The operators that stand before their operand. -/
def signs : List (Token × String) := [(.bang, "!"), (.minus, "-")]

/-- Names with commas between them. -/
def nameList (names : List String) : List Token :=
  (names.map Token.identifier).intersperse .comma

mutual

/-- The tokens form an expression of the level. -/
inductive Expression : Level → List Token → Expr → Prop
  | ident (name : String) : Expression .term [.identifier name] (.ident name)
  | int (value : Int64) : Expression .term [.integer value] (.int value)
  | str (content : String) : Expression .term [.text content] (.str content)
  | true : Expression .term [.trueKeyword] (.bool true)
  | false : Expression .term [.falseKeyword] (.bool false)
  | parens {level : Level} {tokens : List Token} {inner : Expr}
    (hinner : Expression level tokens inner) :
    Expression .term (.openParen :: (tokens ++ [.closeParen])) inner
  | unary {level : Level} {token : Token} {op : String} {tokens : List Token} {operand : Expr}
    (hop : (token, op) ∈ signs) (hlevel : .sign ≤ level)
    (hoperand : Expression level tokens operand) :
    Expression .sign (token :: tokens) (.unary op operand)
  | binary {level lower upper : Level} {token : Token} {op : String} {before behind : List Token}
    {left right : Expr} (hop : (token, op) ∈ level.operators)
    (hlower : level ≤ lower) (hleft : Expression lower before left)
    (hupper : level < upper) (hright : Expression upper behind right) :
    Expression level (before ++ token :: behind) (.binary op left right)
  | call {level : Level} {before tokens : List Token} {callee : Expr} {arguments : List Expr}
    (hlevel : .term ≤ level) (hcallee : Expression level before callee)
    (harguments : Items tokens arguments) :
    Expression .term (before ++ .openParen :: (tokens ++ [.closeParen])) (.call callee arguments)
  | index {level inner : Level} {before tokens : List Token} {collection position : Expr}
    (hlevel : .term ≤ level) (hcollection : Expression level before collection)
    (hposition : Expression inner tokens position) :
    Expression .term (before ++ .openBracket :: (tokens ++ [.closeBracket]))
      (.index collection position)
  | branch {level : Level} {tokens yes : List Token} {condition : Expr} {consequence : List Stmt}
    (hcondition : Expression level tokens condition) (hconsequence : Block yes consequence) :
    Expression .term (.ifKeyword :: .openParen :: (tokens ++ .closeParen :: yes))
      (.branch condition consequence none)
  | branchElse {level : Level} {tokens yes no : List Token} {condition : Expr}
    {consequence alternative : List Stmt} (hcondition : Expression level tokens condition)
    (hconsequence : Block yes consequence) (halternative : Block no alternative) :
    Expression .term
      (.ifKeyword :: .openParen :: (tokens ++ .closeParen :: (yes ++ .elseKeyword :: no)))
      (.branch condition consequence (some alternative))
  | function {tokens : List Token} {parameters : List String} {body : List Stmt}
    (hbody : Block tokens body) :
    Expression .term (.fnKeyword :: .openParen :: (nameList parameters ++ .closeParen :: tokens))
      (.function parameters body none)
  | array {tokens : List Token} {elements : List Expr} (helements : Items tokens elements) :
    Expression .term (.openBracket :: (tokens ++ [.closeBracket])) (.array elements)
  | hash {tokens : List Token} {pairs : List (Expr × Expr)} (hpairs : Pairs tokens pairs) :
    Expression .term (.openBrace :: (tokens ++ [.closeBrace])) (.hash pairs)

/-- Expressions with commas between them. -/
inductive Items : List Token → List Expr → Prop
  | nil : Items [] []
  | cons {level : Level} {tokens rest : List Token} {first : Expr} {others : List Expr}
    (hfirst : Expression level tokens first) (hothers : MoreItems rest others) :
    Items (tokens ++ rest) (first :: others)

/-- Expressions, each after a comma. -/
inductive MoreItems : List Token → List Expr → Prop
  | nil : MoreItems [] []
  | cons {level : Level} {tokens rest : List Token} {first : Expr} {others : List Expr}
    (hfirst : Expression level tokens first) (hothers : MoreItems rest others) :
    MoreItems (.comma :: (tokens ++ rest)) (first :: others)

/-- Pairs with commas between them, and perhaps one behind the last. -/
inductive Pairs : List Token → List (Expr × Expr) → Prop
  | nil : Pairs [] []
  | last {level other : Level} {before behind : List Token} {key value : Expr}
    (hkey : Expression level before key) (hvalue : Expression other behind value) :
    Pairs (before ++ .colon :: behind) [(key, value)]
  | cons {level other : Level} {before behind rest : List Token} {key value : Expr}
    {others : List (Expr × Expr)} (hkey : Expression level before key)
    (hvalue : Expression other behind value) (hothers : Pairs rest others) :
    Pairs (before ++ .colon :: (behind ++ .comma :: rest)) ((key, value) :: others)

/-- A statement without the semicolon that may end it. -/
inductive Clause : List Token → Stmt → Prop
  | bind {level : Level} {tokens : List Token} {value : Expr} (name : String)
    (hvalue : Expression level tokens value) :
    Clause (.letKeyword :: .identifier name :: .assign :: tokens) (.bind name (value.named name))
  | ret {level : Level} {tokens : List Token} {value : Expr}
    (hvalue : Expression level tokens value) : Clause (.returnKeyword :: tokens) (.ret value)
  | eval {level : Level} {tokens : List Token} {value : Expr}
    (hvalue : Expression level tokens value) : Clause tokens (.eval value)

inductive Statement : List Token → Stmt → Prop
  | bare {tokens : List Token} {stmt : Stmt} (h : Clause tokens stmt) : Statement tokens stmt
  | ended {tokens : List Token} {stmt : Stmt} (h : Clause tokens stmt) :
    Statement (tokens ++ [.semicolon]) stmt

inductive Statements : List Token → List Stmt → Prop
  | nil : Statements [] []
  | cons {tokens rest : List Token} {stmt : Stmt} {others : List Stmt}
    (hstmt : Statement tokens stmt) (hothers : Statements rest others) :
    Statements (tokens ++ rest) (stmt :: others)

inductive Block : List Token → List Stmt → Prop
  | braces {tokens : List Token} {stmts : List Stmt} (h : Statements tokens stmts) :
    Block (.openBrace :: (tokens ++ [.closeBrace])) stmts

end

end Grammar

/-! ### Names of function literals -/

mutual

/-- Function literals carry the names that `let`s give them, and no others; the expression itself is
not the value of a `let`. -/
def Expr.letNamed : Expr → Bool
  | .ident _ | .int _ | .str _ | .bool _ => true
  | .unary _ operand => operand.letNamed
  | .binary _ left right => left.letNamed && right.letNamed
  | .branch condition consequence none => condition.letNamed && Stmt.letNamedAll consequence
  | .branch condition consequence (some alternative) =>
    condition.letNamed && Stmt.letNamedAll consequence && Stmt.letNamedAll alternative
  | .function _ body name => name == none && Stmt.letNamedAll body
  | .call callee arguments => callee.letNamed && Expr.letNamedAll arguments
  | .array elements => Expr.letNamedAll elements
  | .hash pairs => Expr.letNamedPairs pairs
  | .index collection position => collection.letNamed && position.letNamed

def Stmt.letNamed : Stmt → Bool
  | .bind name (.function _ body given) => given == some name && Stmt.letNamedAll body
  | .bind _ value => value.letNamed
  | .ret value => value.letNamed
  | .eval expr => expr.letNamed

def Stmt.letNamedAll : List Stmt → Bool
  | [] => true
  | stmt :: rest => stmt.letNamed && Stmt.letNamedAll rest

def Expr.letNamedAll : List Expr → Bool
  | [] => true
  | expr :: rest => expr.letNamed && Expr.letNamedAll rest

def Expr.letNamedPairs : List (Expr × Expr) → Bool
  | [] => true
  | (key, value) :: rest => key.letNamed && value.letNamed && Expr.letNamedPairs rest

end

/-- A function literal has a name if and only if it is the value of a `let`, and then the name that
the `let` binds. -/
def Program.LetNamed (program : Program) : Prop :=
  Stmt.letNamedAll program.statements

instance (program : Program) : Decidable program.LetNamed :=
  inferInstanceAs (Decidable (_ = true))

end StackScript
