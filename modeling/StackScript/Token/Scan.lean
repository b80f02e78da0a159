import StackScript.Token

/-!
Splitting a text into tokens. At each place the longest token that starts there is taken; white
space between tokens is dropped; the first place where no token starts ends the scan.
-/

set_option autoImplicit false
set_option relaxedAutoImplicit false

namespace StackScript

/-- No token starts at `position`; `snippet` is the text that was tried there. -/
structure LexError where
  position : Nat
  snippet : String
  deriving DecidableEq, Repr, Inhabited

def LexError.message (error : LexError) : String :=
  s!"lex error at position {error.position}: unexpected '" ++ error.snippet ++ "'"

namespace Token

/-- What may stand between tokens: space, tab, line feed, carriage return, form feed. -/
def isSeparator (c : Char) : Bool :=
  c == ' ' || c == '\t' || c == '\n' || c == '\r' || c == '\x0c'

/-- Words are made of ASCII letters and underscores; digits are no part of them. -/
def isWordChar (c : Char) : Bool :=
  c.isAlpha || c == '_'

/-- The value of decimal digits, the first of them the highest. -/
def decimalValue (digits : List Char) : Nat :=
  digits.foldl (fun value digit ↦ 10 * value + (digit.toNat - '0'.toNat)) 0

/-- The least number that is too large for an integer of 64 bits. -/
def integerBound : Nat := 0x8000000000000000

/-- The literal of a number that an integer can hold; digits of a larger one are no token. -/
def ofDigits? (digits : List Char) : Option Token :=
  let value := decimalValue digits
  if value < integerBound then some (integer (Int64.ofNat value)) else none

/-- The token of a sign alone, which no longer sign starts with. -/
def ofSign? : Char → Option Token
  | '+' => some plus
  | '-' => some minus
  | '*' => some asterisk
  | '/' => some slash
  | '<' => some less
  | '>' => some greater
  | ',' => some comma
  | ';' => some semicolon
  | ':' => some colon
  | '(' => some openParen
  | ')' => some closeParen
  | '\x7b' => some openBrace
  | '\x7d' => some closeBrace
  | '[' => some openBracket
  | ']' => some closeBracket
  | _ => none

/-- The characters at the head of a text that belong together, the token they are, if they are
one, and what follows them. -/
structure Head where
  token : Option Token
  taken : List Char
  rest : List Char

/-- The text after an opening quote, up to the next quote. One that is never closed takes all
that follows, and is no token. -/
def headOfQuote (cs : List Char) : Head :=
  let content := cs.takeWhile (· != '"')
  match cs.dropWhile (· != '"') with
  | [] => ⟨none, '"' :: content, []⟩
  | quote :: rest => ⟨some (text (String.ofList content)), '"' :: content ++ [quote], rest⟩

/-- Two signs start a longer one. A character that starts no token stands alone. -/
def headOfSign (c : Char) (cs : List Char) : Head :=
  match c, cs with
  | '=', '=' :: cs => ⟨some equal, ['=', '='], cs⟩
  | '=', cs => ⟨some assign, ['='], cs⟩
  | '!', '=' :: cs => ⟨some notEqual, ['!', '='], cs⟩
  | '!', cs => ⟨some bang, ['!'], cs⟩
  | c, cs => ⟨ofSign? c, [c], cs⟩

/-- The head of a text that starts with `c`. -/
def head (c : Char) (cs : List Char) : Head :=
  if isWordChar c then
    let word := c :: cs.takeWhile isWordChar
    ⟨some (ofWord (String.ofList word)), word, cs.dropWhile isWordChar⟩
  else if c.isDigit then
    let digits := c :: cs.takeWhile Char.isDigit
    ⟨ofDigits? digits, digits, cs.dropWhile Char.isDigit⟩
  else if c = '"' then headOfQuote cs
  else headOfSign c cs

theorem taken_append_rest_headOfQuote (cs : List Char) :
    (headOfQuote cs).taken ++ (headOfQuote cs).rest = '"' :: cs := by
  have whole := List.takeWhile_append_dropWhile (p := (· != '"')) (l := cs)
  unfold headOfQuote
  split <;> rename_i cut <;> rw [cut] at whole <;> simpa using whole

theorem taken_append_rest_headOfSign (c : Char) (cs : List Char) :
    (headOfSign c cs).taken ++ (headOfSign c cs).rest = c :: cs := by
  unfold headOfSign
  split <;> simp

/-- Nothing of the text is lost. -/
theorem taken_append_rest_head (c : Char) (cs : List Char) :
    (head c cs).taken ++ (head c cs).rest = c :: cs := by
  unfold head
  split
  · simp
  split
  · simp
  split
  · next h => rw [h, taken_append_rest_headOfQuote]
  · exact taken_append_rest_headOfSign c cs

theorem taken_head_ne_nil (c : Char) (cs : List Char) : (head c cs).taken ≠ [] := by
  unfold head headOfQuote headOfSign
  repeat' split
  all_goals simp

theorem length_rest_head_le (c : Char) (cs : List Char) :
    (head c cs).rest.length ≤ cs.length := by
  have whole := congrArg List.length (taken_append_rest_head c cs)
  have some := List.length_pos_iff.mpr (taken_head_ne_nil c cs)
  simp only [List.length_append, List.length_cons] at whole
  omega

/-- Bytes of a text in UTF-8. -/
def byteLength (cs : List Char) : Nat :=
  cs.foldl (fun size c ↦ size + c.utf8Size) 0

/-- Scans from the byte offset `offset` on, after the tokens `done`, the last of them first. -/
def scanFrom (offset : Nat) (done : List Lexeme) (text : List Char) :
    Except LexError (List Lexeme) :=
  match text with
  | [] => .ok done.reverse
  | c :: cs =>
    if isSeparator c then scanFrom (offset + c.utf8Size) done cs
    else
      let found := head c cs
      match found.token with
      | none => .error ⟨offset, String.ofList found.taken⟩
      | some token =>
        let stop := offset + byteLength found.taken
        scanFrom stop (⟨token, offset, stop⟩ :: done) found.rest
termination_by text.length
decreasing_by
  · simp
  · have := length_rest_head_le c cs
    simp only [List.length_cons]
    omega

def scan (source : String) : Except LexError (List Lexeme) :=
  scanFrom 0 [] source.toList

end Token

end StackScript
