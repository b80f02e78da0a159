import StackScript.Text.Quoted

/-!
The words and signs of the language, and how messages show them.
-/

set_option autoImplicit false
set_option relaxedAutoImplicit false

namespace StackScript

inductive Token where
  | fnKeyword
  | letKeyword
  | trueKeyword
  | falseKeyword
  | ifKeyword
  | elseKeyword
  | returnKeyword
  | assign
  | plus
  | minus
  | bang
  | asterisk
  | slash
  | less
  | greater
  | equal
  | notEqual
  | comma
  | semicolon
  | colon
  | openParen
  | closeParen
  | openBrace
  | closeBrace
  | openBracket
  | closeBracket
  | integer (value : Int64)
  | text (content : String)
  | identifier (name : String)
  deriving DecidableEq, Repr, Inhabited

namespace Token

/-- Every word is a token: a keyword if it is one of the seven, else an identifier. -/
def ofWord (word : String) : Token :=
  match word with
  | "fn" => fnKeyword
  | "let" => letKeyword
  | "true" => trueKeyword
  | "false" => falseKeyword
  | "if" => ifKeyword
  | "else" => elseKeyword
  | "return" => returnKeyword
  | name => identifier name

/-- The sign of a token that can be an operator, as the program holds it. -/
def operator? : Token → Option String
  | plus => some "+"
  | minus => some "-"
  | bang => some "!"
  | asterisk => some "*"
  | slash => some "/"
  | less => some "<"
  | greater => some ">"
  | equal => some "=="
  | notEqual => some "!="
  | _ => none

/-- The name of a token's kind in messages. -/
def kind : Token → String
  | fnKeyword => "Function"
  | letKeyword => "Let"
  | trueKeyword => "True"
  | falseKeyword => "False"
  | ifKeyword => "If"
  | elseKeyword => "Else"
  | returnKeyword => "Return"
  | assign => "Assign"
  | plus => "Plus"
  | minus => "Minus"
  | bang => "Bang"
  | asterisk => "Asterisk"
  | slash => "Slash"
  | less => "Lt"
  | greater => "Gt"
  | equal => "Eq"
  | notEqual => "NotEq"
  | comma => "Comma"
  | semicolon => "Semicolon"
  | colon => "Colon"
  | openParen => "LParen"
  | closeParen => "RParen"
  | openBrace => "LBrace"
  | closeBrace => "RBrace"
  | openBracket => "LBracket"
  | closeBracket => "RBracket"
  | integer _ => "Int"
  | text _ => "Str"
  | identifier _ => "Ident"

/-- A token in messages: its kind, and in parentheses what it carries. -/
def describe (token : Token) : String :=
  match token with
  | integer value => s!"{token.kind}({value})"
  | text content => token.kind ++ "(" ++ Text.quoted content ++ ")"
  | identifier name => token.kind ++ "(" ++ Text.quoted name ++ ")"
  | _ => token.kind

end Token

/-- A token at its place: the byte offsets of its first character and of the end. -/
structure Lexeme where
  token : Token
  start : Nat
  stop : Nat
  deriving DecidableEq, Repr, Inhabited

end StackScript
