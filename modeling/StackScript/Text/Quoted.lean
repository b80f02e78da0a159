import StackScript.Text.Printable
import StackScript.Text.GraphemeExtend

/-!
Texts as messages quote them: between double quotes, with an escape for each character that would
end the quote, break the line, or not show.
-/

set_option autoImplicit false
set_option relaxedAutoImplicit false

namespace StackScript.Text

/-- The code point of a character in lower-case hexadecimal, without leading zeros, between
braces. -/
def codePointEscape (c : Char) : List Char :=
  ['\\', 'u', '\x7b'] ++ Nat.toDigits 16 c.toNat ++ ['\x7d']

/-- The two sound marks of halfwidth katakana. They extend the grapheme before them, but stand in a
place of their own. -/
def isHalfwidthSoundMark (c : Char) : Bool :=
  c == '\uff9e' || c == '\uff9f'

/-- Whether a character would be drawn onto the quote or the escape before it. -/
def joinsPrevious (c : Char) : Bool :=
  extendsGrapheme c && !isHalfwidthSoundMark c

/-- One character inside quotes. One that joins what is before it is escaped although it prints. -/
def quotedChar (c : Char) : List Char :=
  match c with
  | '\x00' => ['\\', '0']
  | '\t' => ['\\', 't']
  | '\n' => ['\\', 'n']
  | '\r' => ['\\', 'r']
  | '"' => ['\\', '"']
  | '\\' => ['\\', '\\']
  | c => if joinsPrevious c || !isPrintable c then codePointEscape c else [c]

def quoted (text : String) : String :=
  String.ofList ('"' :: text.toList.flatMap quotedChar ++ ['"'])

end StackScript.Text
