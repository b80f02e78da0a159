import StackScript.Program
import StackScript.Token.Scan

/-!
Programs from tokens. Expressions are read by how tightly operators bind; a statement that cannot
be read is reported, and reading goes on behind the next semicolon outside braces.
-/

set_option autoImplicit false
set_option relaxedAutoImplicit false

namespace StackScript

/-- Why a statement cannot be read. A token that is absent is the end of the input. -/
inductive ParseError.Cause where
  | expected (wanted : Token) (got : Option Token)
  | expectedIdentifier (got : Option Token)
  | expectedExpression
  | expectedOperator
  | noOperand (token : Token)
  | noOperator (token : Token)
  | tooDeep
  deriving DecidableEq, Repr

structure ParseError where
  position : Nat
  cause : ParseError.Cause
  deriving DecidableEq, Repr

namespace ParseError

def describe? : Option Token → String
  | some token => token.describe
  | none => "end of input"

def Cause.message : Cause → String
  | expected wanted got => "expected " ++ wanted.describe ++ ", got " ++ describe? got
  | expectedIdentifier got => "expected identifier, got " ++ describe? got
  | expectedExpression => "expected expression, got end of input"
  | expectedOperator => "expected operator, got end of input"
  | noOperand token => "no prefix parse function for " ++ token.describe
  | noOperator token => "no infix parse function for " ++ token.describe
  | tooDeep => "expression nested too deeply"

def message (error : ParseError) : String :=
  s!"parse error at position {error.position}: " ++ error.cause.message

end ParseError

/-- How tightly an operator binds, from the loosest on. -/
inductive Strength where
  | lowest
  | equality
  | order
  | sum
  | product
  | sign
  | call
  | index
  deriving DecidableEq, Repr

def Strength.rank : Strength → Nat
  | lowest => 0
  | equality => 1
  | order => 2
  | sum => 3
  | product => 4
  | sign => 5
  | call => 6
  | index => 7

/-- How tightly a token binds as an operator behind an operand; the lowest if it is none. -/
def Token.strength : Token → Strength
  | equal | notEqual => .equality
  | less | greater => .order
  | plus | minus => .sum
  | asterisk | slash => .product
  | openParen => .call
  | openBracket => .index
  | _ => .lowest

/-- The value of `let name`: a function literal takes the name. -/
def Expr.named (name : String) : Expr → Expr
  | .function parameters body _ => .function parameters body (some name)
  | value => value

namespace Parser

/-- What is still to be read, and the offset at which all input ends. -/
structure Input where
  rest : List Lexeme
  stop : Nat
  deriving DecidableEq, Repr

def Input.position (input : Input) : Nat :=
  match input.rest with
  | lexeme :: _ => lexeme.start
  | [] => input.stop

end Parser

/-- A reader of tokens. An error leaves the input where it was found. -/
abbrev Parser := EStateM ParseError Parser.Input

namespace Parser

def fail {α : Type} (cause : ParseError.Cause) : Parser α := fun input ↦
  .error ⟨input.position, cause⟩ input

def peek : Parser (Option Token) := fun input ↦
  .ok (input.rest.head?.map Lexeme.token) input

/-- Leaves the current token behind. -/
def skip : Parser Unit := fun input ↦
  .ok () { input with rest := input.rest.tail }

def position : Parser Nat := fun input ↦
  .ok input.position input

def expect (wanted : Token) : Parser Unit := do
  let got ← peek
  if got = some wanted then skip else fail (.expected wanted got)

def identifier : Parser String := do
  match ← peek with
  | some (.identifier name) =>
    skip
    return name
  | got => fail (.expectedIdentifier got)

/-- Leaves the current token behind if it is `token`, and says whether it was. -/
def skipIf (token : Token) : Parser Bool := do
  if (← peek) = some token then
    skip
    return true
  else
    return false

/-- The parameters behind the first one, each after a comma; `done` holds those read, the last
of them first. -/
def parametersFrom (fuel : Nat) (done : List String) : Parser (List String) :=
  match fuel with
  | 0 => fail .tooDeep
  | fuel + 1 => do
    if ← skipIf .comma then parametersFrom fuel ((← identifier) :: done)
    else return done.reverse

/-- The names between the parentheses of a function literal. -/
def parameters (fuel : Nat) : Parser (List String) := do
  if (← peek) = some .closeParen then return []
  else parametersFrom fuel [← identifier]

/-! Each function below reads one form of the grammar. All recur on a bound for the depth of the
reading, which `Program.ofTokens` takes from the number of tokens. -/

mutual

/-- A statement, and the semicolon that may end it. -/
def statement (fuel : Nat) : Parser Stmt :=
  match fuel with
  | 0 => fail .tooDeep
  | fuel + 1 => do
    match ← peek with
    | some .letKeyword =>
      skip
      let name ← identifier
      expect .assign
      let value ← expr fuel .lowest
      let _ ← skipIf .semicolon
      return .bind name (value.named name)
    | some .returnKeyword =>
      skip
      let value ← expr fuel .lowest
      let _ ← skipIf .semicolon
      return .ret value
    | _ =>
      let value ← expr fuel .lowest
      let _ ← skipIf .semicolon
      return .eval value

/-- Statements in braces. -/
def block (fuel : Nat) : Parser (List Stmt) :=
  match fuel with
  | 0 => fail .tooDeep
  | fuel + 1 => do
    expect .openBrace
    let statements ← statementsFrom fuel []
    expect .closeBrace
    return statements

/-- Statements up to a closing brace or the end; `done` holds those read, the last of them
first. -/
def statementsFrom (fuel : Nat) (done : List Stmt) : Parser (List Stmt) :=
  match fuel with
  | 0 => fail .tooDeep
  | fuel + 1 => do
    match ← peek with
    | none | some .closeBrace => return done.reverse
    | _ => statementsFrom fuel ((← statement fuel) :: done)

/-- An expression whose operators all bind tighter than `level`. -/
def expr (fuel : Nat) (level : Strength) : Parser Expr :=
  match fuel with
  | 0 => fail .tooDeep
  | fuel + 1 => do operatorsFrom fuel level (← operand fuel)

/-- The operators behind the operand `left`, as long as they bind tighter than `level`. -/
def operatorsFrom (fuel : Nat) (level : Strength) (left : Expr) : Parser Expr :=
  match fuel with
  | 0 => fail .tooDeep
  | fuel + 1 => do
    match ← peek with
    | none => return left
    | some token =>
      if level.rank < token.strength.rank then
        operatorsFrom fuel level (← operator fuel left)
      else
        return left

/-- An expression up to its first binary operator, call or index. -/
def operand (fuel : Nat) : Parser Expr :=
  match fuel with
  | 0 => fail .tooDeep
  | fuel + 1 => do
    let start ← position
    match ← peek with
    | none => fail .expectedExpression
    | some token =>
      skip
      match token with
      | .trueKeyword => return .bool true
      | .falseKeyword => return .bool false
      | .bang => return .unary "!" (← expr fuel .sign)
      | .minus => return .unary "-" (← expr fuel .sign)
      | .openParen =>
        let inner ← expr fuel .lowest
        expect .closeParen
        return inner
      | .ifKeyword => branch fuel
      | .fnKeyword => functionLiteral fuel
      | .openBracket => return .array (← items fuel .closeBracket)
      | .openBrace => return .hash (← pairsFrom fuel [])
      | .identifier name => return .ident name
      | .text content => return .str content
      | .integer value => return .int value
      | token => throw ⟨start, .noOperand token⟩

/-- A call, an index or a binary operator with its right operand, behind the operand `left`. -/
def operator (fuel : Nat) (left : Expr) : Parser Expr :=
  match fuel with
  | 0 => fail .tooDeep
  | fuel + 1 => do
    let start ← position
    match ← peek with
    | none => fail .expectedOperator
    | some token =>
      skip
      match token with
      | .openParen => return .call left (← items fuel .closeParen)
      | .openBracket =>
        let position ← expr fuel .lowest
        expect .closeBracket
        return .index left position
      | token =>
        match token.operator? with
        | some op => return .binary op left (← expr fuel token.strength)
        | none => throw ⟨start, .noOperator token⟩

/-- What follows `if`. -/
def branch (fuel : Nat) : Parser Expr :=
  match fuel with
  | 0 => fail .tooDeep
  | fuel + 1 => do
    expect .openParen
    let condition ← expr fuel .lowest
    expect .closeParen
    let consequence ← block fuel
    if ← skipIf .elseKeyword then
      return .branch condition consequence (some (← block fuel))
    else
      return .branch condition consequence none

/-- What follows `fn`. -/
def functionLiteral (fuel : Nat) : Parser Expr :=
  match fuel with
  | 0 => fail .tooDeep
  | fuel + 1 => do
    expect .openParen
    let parameters ← parameters fuel
    expect .closeParen
    let body ← block fuel
    return .function parameters body none

/-- Expressions with commas between them, up to the token `close`. -/
def items (fuel : Nat) (close : Token) : Parser (List Expr) :=
  match fuel with
  | 0 => fail .tooDeep
  | fuel + 1 => do
    if ← skipIf close then return []
    else
      let items ← itemsFrom fuel [← expr fuel .lowest]
      expect close
      return items

/-- The expressions behind the first one, each after a comma. -/
def itemsFrom (fuel : Nat) (done : List Expr) : Parser (List Expr) :=
  match fuel with
  | 0 => fail .tooDeep
  | fuel + 1 => do
    if ← skipIf .comma then itemsFrom fuel ((← expr fuel .lowest) :: done)
    else return done.reverse

/-- Pairs up to a closing brace, with commas between them and perhaps one behind the last. -/
def pairsFrom (fuel : Nat) (done : List (Expr × Expr)) : Parser (List (Expr × Expr)) :=
  match fuel with
  | 0 => fail .tooDeep
  | fuel + 1 => do
    if ← skipIf .closeBrace then return done.reverse
    else
      let key ← expr fuel .lowest
      expect .colon
      let value ← expr fuel .lowest
      if (← peek) ≠ some .closeBrace then expect .comma
      pairsFrom fuel ((key, value) :: done)

end

/-- What follows the next semicolon that is outside of all braces opened before it; `depth`
counts the braces still open. -/
def afterBoundary (depth : Nat) : List Lexeme → List Lexeme
  | [] => []
  | lexeme :: rest =>
    match lexeme.token with
    | .semicolon => if depth = 0 then rest else afterBoundary depth rest
    | .openBrace => afterBoundary (depth + 1) rest
    | .closeBrace => afterBoundary (depth - 1) rest
    | _ => afterBoundary depth rest

/-- Reading ends at this number of errors. -/
def errorLimit : Nat := 20

/-- Statements up to the end of the input, with the errors found on the way; `done` and `errors`
hold what came before, the last of it first. Each of `rounds` reads one statement. -/
def program (fuel rounds : Nat) (done : List Stmt) (errors : List ParseError) (input : Input) :
    Program × List ParseError :=
  match rounds with
  | 0 => (⟨done.reverse⟩, errors.reverse)
  | rounds + 1 =>
    if input.rest.isEmpty || errorLimit ≤ errors.length then (⟨done.reverse⟩, errors.reverse)
    else
      match statement fuel input with
      | .ok stmt input => program fuel rounds (stmt :: done) errors input
      | .error error input =>
        program fuel rounds done (error :: errors)
          { input with rest := afterBoundary 0 input.rest }

end Parser

/-- The offset at which the last token ends. -/
def Lexeme.endOf (lexemes : List Lexeme) : Nat :=
  (lexemes.getLast?.map Lexeme.stop).getD 0

namespace Program

/-- The statements that can be read, and the errors in the others. A statement is read in steps
of which a few at most take no token, so the number of tokens bounds their nesting. -/
def readTokens (lexemes : List Lexeme) : Program × List ParseError :=
  let count := lexemes.length
  Parser.program (8 * count + 8) count [] [] ⟨lexemes, Lexeme.endOf lexemes⟩

def ofTokens (lexemes : List Lexeme) : Except (List ParseError) Program :=
  match readTokens lexemes with
  | (program, []) => .ok program
  | (_, errors) => .error errors

end Program

/-- Why a text is no program. -/
inductive SyntaxError where
  | lexical (error : LexError)
  | grammatical (errors : List ParseError)
  deriving Repr

def SyntaxError.message : SyntaxError → String
  | lexical error => error.message
  | grammatical errors => "\n".intercalate (errors.map ParseError.message)

def Program.ofSource (source : String) : Except SyntaxError Program :=
  match Token.scan source with
  | .error error => .error (.lexical error)
  | .ok lexemes =>
    match Program.ofTokens lexemes with
    | .ok program => .ok program
    | .error errors => .error (.grammatical errors)

end StackScript
