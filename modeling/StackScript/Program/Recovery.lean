import StackScript.Program.Parser

/-!
Where reading goes on behind an error, said by the tokens alone: behind the first semicolon from the
error on that is in none of the braces opened from there on (`Token.Boundary`). `Program.attempts`
lists the statements that are tried one after the other, with the index of the token at which each
begins and with what came of it.
-/

set_option autoImplicit false
set_option relaxedAutoImplicit false

namespace StackScript

namespace Token

/-- A brace that is opened in these tokens is still open behind them. -/
def Inside (before : List Token) : Prop :=
  ∃ outer inner, before = outer ++ .openBrace :: inner ∧
    ∀ part, part <+: inner → part.count .closeBrace ≤ part.count .openBrace

/-- The first semicolon from `start` on that is in none of the braces opened from there on. -/
structure Boundary (tokens : List Token) (start index : Nat) : Prop where
  le : start ≤ index
  semicolon : tokens[index]? = some .semicolon
  outside : ¬Inside ((tokens.take index).drop start)
  first : ∀ earlier, start ≤ earlier → earlier < index → tokens[earlier]? = some .semicolon →
    Inside ((tokens.take earlier).drop start)

end Token

/-- The tokens, each at its index. -/
def Lexeme.numbered (tokens : List Token) : List Lexeme :=
  tokens.mapIdx fun index token ↦ ⟨token, index, index + 1⟩

def Parser.Input.numbered (tokens : List Token) : Parser.Input :=
  ⟨Lexeme.numbered tokens, tokens.length⟩

/-- Where in the text the token of this index starts; behind the last token, where that ends. -/
def Lexeme.offset (lexemes : List Lexeme) (index : Nat) : Nat :=
  match lexemes[index]? with
  | some lexeme => lexeme.start
  | none => endOf lexemes

/-- The error at the index of a token, as an error at an offset in the text. -/
def ParseError.located (lexemes : List Lexeme) (error : ParseError) : ParseError :=
  ⟨Lexeme.offset lexemes error.position, error.cause⟩

/-- The index from which the boundary is looked for. A semicolon in the place of an operand is left
behind when the error is found, and does not count. -/
def ParseError.restart (error : ParseError) : Nat :=
  match error.cause with
  | .noOperand .semicolon => error.position + 1
  | _ => error.position

namespace Parser

/-- A statement that was tried: where it begins, and what came of it. -/
structure Attempt where
  start : Nat
  outcome : Except ParseError Stmt

def Attempt.stmt? (attempt : Attempt) : Option Stmt :=
  match attempt.outcome with
  | .ok stmt => some stmt
  | .error _ => none

def Attempt.error? (attempt : Attempt) : Option ParseError :=
  match attempt.outcome with
  | .ok _ => none
  | .error error => some error

/-- The statements that are tried up to the end of the input, after so many errors. Each of `rounds`
is one of them. -/
def attempts (fuel rounds failures : Nat) (input : Input) : List Attempt :=
  match rounds with
  | 0 => []
  | rounds + 1 =>
    if input.rest.isEmpty || errorLimit ≤ failures then []
    else
      match statement fuel input with
      | .ok stmt after => ⟨input.position, .ok stmt⟩ :: attempts fuel rounds failures after
      | .error error after =>
        ⟨input.position, .error error⟩ ::
          attempts fuel rounds (failures + 1) { after with rest := afterBoundary 0 after.rest }

end Parser

namespace Program

/-- The statements that are tried in a text of these tokens. -/
def attempts (tokens : List Token) : List Parser.Attempt :=
  Parser.attempts (8 * tokens.length + 8) tokens.length 0 (.numbered tokens)

/-- The program and the errors that come of the statements tried in a text. -/
def collected (lexemes : List Lexeme) (attempts : List Parser.Attempt) :
    Program × List ParseError :=
  (⟨attempts.filterMap Parser.Attempt.stmt?⟩,
    (attempts.filterMap Parser.Attempt.error?).map (ParseError.located lexemes))

/-- Reading goes on at the index: a statement is tried there, unless the tokens are at their end,
and all statements of a text of its own that begins there are read, if it reaches up to a semicolon
or to the end. -/
structure ResumesAt (tokens : List Token) (index : Nat) (behind : List Parser.Attempt) : Prop where
  start : behind.head?.map Parser.Attempt.start = if index < tokens.length then some index else none
  kept : ∀ front rest program, tokens.drop index = front ++ rest →
    (rest = [] ∨ front.getLast? = some .semicolon) →
    ofTokens (Lexeme.numbered front) = .ok program →
    program.statements.map .ok <+: behind.map Parser.Attempt.outcome

end Program

end StackScript
