import Mathlib.Algebra.Group.Nat.Defs
import StackScript.Token.Scan

/-!
Which texts are tokens, and which, said apart from any scan. A text is a token if it matches one of
the patterns (`Token.Matches`); of the texts that a place begins with, the longest that does is the
one that counts (`Token.Longest`). `Token.Tiling` says of tokens at their places that they are these
texts of the source, one behind the other, with nothing but separators outside them.
-/

set_option autoImplicit false
set_option relaxedAutoImplicit false

namespace StackScript

namespace Token

/-- The texts that are matched as they stand. -/
def exact : List (String × Token) :=
  [("fn", fnKeyword), ("let", letKeyword), ("true", trueKeyword), ("false", falseKeyword),
    ("if", ifKeyword), ("else", elseKeyword), ("return", returnKeyword),
    ("=", assign), ("+", plus), ("-", minus), ("!", bang), ("*", asterisk), ("/", slash),
    ("<", less), (">", greater), ("==", equal), ("!=", notEqual),
    (",", comma), (";", semicolon), (":", colon), ("(", openParen), (")", closeParen),
    ("\x7b", openBrace), ("\x7d", closeBrace), ("[", openBracket), ("]", closeBracket)]

def IsNumber (text : List Char) : Prop :=
  text ≠ [] ∧ ∀ c ∈ text, c.isDigit

def IsWord (text : List Char) : Prop :=
  text ≠ [] ∧ ∀ c ∈ text, isWordChar c

/-- A text matches a pattern: an exact one, or that of numbers, of strings or of words. -/
inductive Matches : List Char → Prop
  | exact {entry : String × Token} (h : entry ∈ exact) : Matches entry.1.toList
  | number {text : List Char} (h : IsNumber text) : Matches text
  | quoted {content : List Char} (h : '"' ∉ content) : Matches ('"' :: content ++ ['"'])
  | word {text : List Char} (h : IsWord text) : Matches text

/-- The token that a text is. A word that is matched as it stands is no identifier. -/
inductive Denotes : List Char → Token → Prop
  | exact {entry : String × Token} (h : entry ∈ exact) : Denotes entry.1.toList entry.2
  | number {text : List Char} {value : Int64} (h : IsNumber text)
    (hvalue : value.toInt = Nat.ofDigitChars 10 text 0) : Denotes text (integer value)
  | quoted {content : List Char} (h : '"' ∉ content) :
    Denotes ('"' :: content ++ ['"']) (Token.text (String.ofList content))
  | word {text : List Char} (h : IsWord text)
    (hexact : ∀ entry ∈ Token.exact, entry.1.toList ≠ text) :
    Denotes text (identifier (String.ofList text))

/-- Of the texts that `text` begins with, the longest that matches a pattern. -/
structure Longest (taken text : List Char) : Prop where
  head : taken <+: text
  matched : Matches taken
  longest : ∀ other, other <+: text → Matches other → other.length ≤ taken.length

/-- The tokens tile the text up to a byte offset. A place in the text is given by the part before
it, so that its offset is a boundary between characters. -/
structure Tiling (source : String) (stop : Nat) (lexemes : List Lexeme) : Prop where
  nonempty : ∀ lexeme ∈ lexemes, lexeme.start < lexeme.stop
  increasing : lexemes.Pairwise fun first second ↦ first.stop ≤ second.start
  within : ∀ lexeme ∈ lexemes, lexeme.stop ≤ stop
  taken : ∀ lexeme ∈ lexemes, ∃ before text rest : String, source = before ++ text ++ rest ∧
    before.utf8ByteSize = lexeme.start ∧ (before ++ text).utf8ByteSize = lexeme.stop ∧
    Longest text.toList (text ++ rest).toList ∧ Denotes text.toList lexeme.token
  outside : ∀ (before rest : String) (c : Char), source = before ++ String.singleton c ++ rest →
    before.utf8ByteSize < stop →
    (∀ lexeme ∈ lexemes,
      before.utf8ByteSize < lexeme.start ∨ lexeme.stop ≤ before.utf8ByteSize) →
    isSeparator c

/-- No token can start in front of this text: no pattern matches there, or the longest match is a
number that is too large. -/
def Stuck (text : List Char) : Prop :=
  (∀ taken, taken <+: text → ¬Matches taken) ∨
    ∃ taken, Longest taken text ∧ IsNumber taken ∧ 2 ^ 63 ≤ Nat.ofDigitChars 10 taken 0

end Token

end StackScript
