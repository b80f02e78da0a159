import StackScript.Program.Grammar

/-!
Programs as text. Tokens stand with a space between them, a semicolon ends every statement, and an
operand or a callee is in parentheses if it binds looser than its place requires. Not every program
can be written: no text stands for a negative integer, for a quote inside a string or for an
operator of another language (`Program.Writable`).
-/

set_option autoImplicit false
set_option relaxedAutoImplicit false

namespace StackScript

namespace Token

/-- How a token is written. -/
def source : Token → String
  | fnKeyword => "fn"
  | letKeyword => "let"
  | trueKeyword => "true"
  | falseKeyword => "false"
  | ifKeyword => "if"
  | elseKeyword => "else"
  | returnKeyword => "return"
  | assign => "="
  | plus => "+"
  | minus => "-"
  | bang => "!"
  | asterisk => "*"
  | slash => "/"
  | less => "<"
  | greater => ">"
  | equal => "=="
  | notEqual => "!="
  | comma => ","
  | semicolon => ";"
  | colon => ":"
  | openParen => "("
  | closeParen => ")"
  | openBrace => "\x7b"
  | closeBrace => "\x7d"
  | openBracket => "["
  | closeBracket => "]"
  | integer value => toString value
  | text content => "\"" ++ content ++ "\""
  | identifier name => name

/-- The sign of an operator; what is none stands as it is. -/
def ofOperator : String → Token
  | "+" => plus
  | "-" => minus
  | "!" => bang
  | "*" => asterisk
  | "/" => slash
  | "<" => less
  | ">" => greater
  | "==" => equal
  | "!=" => notEqual
  | other => identifier other

def keywords : List String := ["fn", "let", "true", "false", "if", "else", "return"]

/-- Whether a text can be read as an identifier. -/
def isName (name : String) : Bool :=
  name != "" && name.toList.all isWordChar && !keywords.contains name

/-- Whether the text of a token can be read as the token. -/
def writable : Token → Bool
  | integer value => 0 ≤ value
  | text content => !content.toList.contains '"'
  | identifier name => isName name
  | _ => true

/-- The texts of tokens with a space between each and the next. -/
def written (tokens : List Token) : String :=
  " ".intercalate (tokens.map source)

end Token

namespace Grammar.Level

/-- The level of a binary operator; what is none binds loosest. -/
def ofOperator : String → Level
  | "<" | ">" => .order
  | "+" | "-" => .sum
  | "*" | "/" => .product
  | _ => .equality

/-- The binary operators of all levels. -/
def binaryOperators : List String :=
  [equality, order, sum, product].flatMap fun level ↦ level.operators.map Prod.snd

/-- The next tighter level. -/
def next : Level → Level
  | equality => .order
  | order => .sum
  | sum => .product
  | product => .sign
  | sign | term => .term

end Grammar.Level

namespace Grammar

/-- An expression of a level where one of at least the level `required` stands. -/
def placed (required level : Level) (tokens : List Token) : List Token :=
  if level < required then .openParen :: (tokens ++ [.closeParen]) else tokens

def braces (tokens : List Token) : List Token :=
  .openBrace :: (tokens ++ [.closeBrace])

/-- Parts with commas between them. -/
def listed (parts : List (List Token)) : List Token :=
  [Token.comma].intercalate parts

end Grammar

open Grammar

def Expr.level : Expr → Level
  | .unary _ _ => .sign
  | .binary op _ _ => .ofOperator op
  | _ => .term

mutual

def Expr.tokens : Expr → List Token
  | .ident name => [.identifier name]
  | .int value => [.integer value]
  | .str content => [.text content]
  | .bool true => [.trueKeyword]
  | .bool false => [.falseKeyword]
  | .unary op operand => .ofOperator op :: placed .sign operand.level operand.tokens
  | .binary op left right =>
    placed (.ofOperator op) left.level left.tokens ++
      .ofOperator op :: placed (Level.ofOperator op).next right.level right.tokens
  | .branch condition consequence none =>
    .ifKeyword :: .openParen :: (condition.tokens ++ .closeParen ::
      braces (Stmt.tokensAll consequence))
  | .branch condition consequence (some alternative) =>
    .ifKeyword :: .openParen :: (condition.tokens ++ .closeParen ::
      (braces (Stmt.tokensAll consequence) ++ .elseKeyword :: braces (Stmt.tokensAll alternative)))
  | .function parameters body _ =>
    .fnKeyword :: .openParen :: (nameList parameters ++ .closeParen :: braces (Stmt.tokensAll body))
  | .call callee arguments =>
    placed .term callee.level callee.tokens ++
      .openParen :: (listed (Expr.tokensEach arguments) ++ [.closeParen])
  | .array elements => .openBracket :: (listed (Expr.tokensEach elements) ++ [.closeBracket])
  | .hash pairs => braces (listed (Expr.tokensPairs pairs))
  | .index collection position =>
    placed .term collection.level collection.tokens ++
      .openBracket :: (position.tokens ++ [.closeBracket])

def Stmt.tokens : Stmt → List Token
  | .bind name value => .letKeyword :: .identifier name :: .assign :: (value.tokens ++ [.semicolon])
  | .ret value => .returnKeyword :: (value.tokens ++ [.semicolon])
  | .eval expr => expr.tokens ++ [.semicolon]

def Stmt.tokensAll : List Stmt → List Token
  | [] => []
  | stmt :: rest => stmt.tokens ++ Stmt.tokensAll rest

def Expr.tokensEach : List Expr → List (List Token)
  | [] => []
  | expr :: rest => expr.tokens :: Expr.tokensEach rest

def Expr.tokensPairs : List (Expr × Expr) → List (List Token)
  | [] => []
  | (key, value) :: rest => (key.tokens ++ .colon :: value.tokens) :: Expr.tokensPairs rest

end

def Program.print (program : Program) : String :=
  Token.written (Stmt.tokensAll program.statements)

/-! ### Programs that can be written -/

mutual

def Expr.writable : Expr → Bool
  | .ident name => (Token.identifier name).writable
  | .int value => (Token.integer value).writable
  | .str content => (Token.text content).writable
  | .bool _ => true
  | .unary op operand => (signs.map Prod.snd).contains op && operand.writable
  | .binary op left right => Level.binaryOperators.contains op && left.writable && right.writable
  | .branch condition consequence none => condition.writable && Stmt.writableAll consequence
  | .branch condition consequence (some alternative) =>
    condition.writable && Stmt.writableAll consequence && Stmt.writableAll alternative
  | .function parameters body _ =>
    parameters.all Token.isName && Stmt.writableAll body
  | .call callee arguments => callee.writable && Expr.writableAll arguments
  | .array elements => Expr.writableAll elements
  | .hash pairs => Expr.writablePairs pairs
  | .index collection position => collection.writable && position.writable

def Stmt.writable : Stmt → Bool
  | .bind name value => Token.isName name && value.writable
  | .ret value => value.writable
  | .eval expr => expr.writable

def Stmt.writableAll : List Stmt → Bool
  | [] => true
  | stmt :: rest => stmt.writable && Stmt.writableAll rest

def Expr.writableAll : List Expr → Bool
  | [] => true
  | expr :: rest => expr.writable && Expr.writableAll rest

def Expr.writablePairs : List (Expr × Expr) → Bool
  | [] => true
  | (key, value) :: rest => key.writable && value.writable && Expr.writablePairs rest

end

/-- Integers are not negative, strings hold no quote, identifiers can be read as such, and all
operators are operators of the language. -/
def Program.Writable (program : Program) : Prop :=
  Stmt.writableAll program.statements

instance (program : Program) : Decidable program.Writable :=
  inferInstanceAs (Decidable (_ = true))

end StackScript
