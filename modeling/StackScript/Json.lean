/-!
JSON values and their printed text. A string is kept as it is written between its quotes; its
characters are worked out when they are asked for, since a value that is passed over may hold
escapes that name no character.
-/

set_option autoImplicit false
set_option relaxedAutoImplicit false

namespace StackScript

inductive Json where
  | null
  | bool (value : Bool)
  | integer (value : Int)
  /-- A number with a fraction, an exponent or the text `-0`. -/
  | decimal (written : List Char)
  | string (written : List Char)
  | array (elements : List Json)
  | object (members : List (List Char × Json))

instance : Inhabited Json := ⟨.null⟩

namespace Json

/-! ## Strings -/

/-- One character between quotes. Only what must be escaped is: the quote, the backslash and the
characters below the space. -/
def encodeChar (c : Char) : List Char :=
  match c with
  | '"' => ['\\', '"']
  | '\\' => ['\\', '\\']
  | '\x08' => ['\\', 'b']
  | '\x0c' => ['\\', 'f']
  | '\n' => ['\\', 'n']
  | '\r' => ['\\', 'r']
  | '\t' => ['\\', 't']
  | c =>
    if c.toNat < 0x20 then
      ['\\', 'u', '0', '0', Nat.digitChar (c.toNat / 16), Nat.digitChar (c.toNat % 16)]
    else [c]

def encode (content : List Char) : List Char :=
  content.flatMap encodeChar

def hexDigit? (c : Char) : Option Nat :=
  if '0' ≤ c ∧ c ≤ '9' then some (c.toNat - '0'.toNat)
  else if 'a' ≤ c ∧ c ≤ 'f' then some (c.toNat - 'a'.toNat + 10)
  else if 'A' ≤ c ∧ c ≤ 'F' then some (c.toNat - 'A'.toNat + 10)
  else none

/-- The character that a backslash and one more character stand for. -/
def escaped? : Char → Option Char
  | '"' => some '"'
  | '\\' => some '\\'
  | '/' => some '/'
  | 'b' => some '\x08'
  | 'f' => some '\x0c'
  | 'n' => some '\n'
  | 'r' => some '\r'
  | 't' => some '\t'
  | _ => none

/-- What the written text of a string stands for, as code points and, where it spells a character
in two halves, as the halves. There is none if the text has a broken escape or a bare control
character. -/
def units? : List Char → Option (List Nat)
  | [] => some []
  | '\\' :: 'u' :: a :: b :: c :: d :: rest => do
    let high := 16 * (← hexDigit? a) + (← hexDigit? b)
    let low := 16 * (← hexDigit? c) + (← hexDigit? d)
    return (256 * high + low) :: (← units? rest)
  | '\\' :: c :: rest => do
    return (← escaped? c).toNat :: (← units? rest)
  | c :: rest =>
    if c = '\\' ∨ c.toNat < 0x20 then none else do return c.toNat :: (← units? rest)

/-- The first half of a character beyond the first 65536. -/
def isHighHalf (unit : Nat) : Bool := 0xd800 ≤ unit && unit < 0xdc00

def isLowHalf (unit : Nat) : Bool := 0xdc00 ≤ unit && unit < 0xe000

/-- The characters of the units; a half without the other half is none. -/
def ofUnits? : List Nat → Option (List Char)
  | [] => some []
  | [unit] => if isHighHalf unit || isLowHalf unit then none else some [Char.ofNat unit]
  | unit :: next :: rest =>
    if isHighHalf unit then
      if isLowHalf next then do
        let c := Char.ofNat (0x10000 + 0x400 * (unit - 0xd800) + (next - 0xdc00))
        return c :: (← ofUnits? rest)
      else none
    else if isLowHalf unit then none
    else do return Char.ofNat unit :: (← ofUnits? (next :: rest))

def decode? (written : List Char) : Option (List Char) := do
  ofUnits? (← units? written)

/-! ## Printing -/

/-- A new line, indented by two spaces for each level. -/
def newLine (depth : Nat) : List Char :=
  '\n' :: List.replicate (2 * depth) ' '

def quote (written : List Char) : List Char :=
  '"' :: written ++ ['"']

mutual

/-- The text of a value, each element and member on a line of its own. -/
def pretty (depth : Nat) : Json → List Char
  | null => ['n', 'u', 'l', 'l']
  | bool true => ['t', 'r', 'u', 'e']
  | bool false => ['f', 'a', 'l', 's', 'e']
  | integer value => (toString value).toList
  | decimal written => written
  | string written => quote written
  | array [] => ['[', ']']
  | array (element :: rest) =>
    '[' :: newLine (depth + 1) ++ pretty (depth + 1) element ++
      prettyElements (depth + 1) rest ++ newLine depth ++ [']']
  | object [] => ['\x7b', '\x7d']
  | object ((key, value) :: rest) =>
    '\x7b' :: newLine (depth + 1) ++ quote key ++ [':', ' '] ++ pretty (depth + 1) value ++
      prettyMembers (depth + 1) rest ++ newLine depth ++ ['\x7d']

/-- Elements behind the first one. -/
def prettyElements (depth : Nat) : List Json → List Char
  | [] => []
  | element :: rest =>
    ',' :: newLine depth ++ pretty depth element ++ prettyElements depth rest

/-- Members behind the first one. -/
def prettyMembers (depth : Nat) : List (List Char × Json) → List Char
  | [] => []
  | (key, value) :: rest =>
    ',' :: newLine depth ++ quote key ++ [':', ' '] ++ pretty depth value ++
      prettyMembers depth rest

end

def toPrettyString (json : Json) : String :=
  String.ofList (json.pretty 0)

/-! ## Nesting -/

mutual

/-- How many arrays and objects are inside one another. -/
def depth : Json → Nat
  | array elements => elementsDepth elements + 1
  | object members => membersDepth members + 1
  | _ => 0

def elementsDepth : List Json → Nat
  | [] => 0
  | element :: rest => max element.depth (elementsDepth rest)

def membersDepth : List (List Char × Json) → Nat
  | [] => 0
  | (_, value) :: rest => max value.depth (membersDepth rest)

end

/-! ## Looking into values -/

/-- A string value. -/
def ofText (content : String) : Json :=
  string (encode content.toList)

/-- A member of an object. -/
def member (name : String) (value : Json) : List Char × Json :=
  (encode name.toList, value)

def text? : Json → Option String
  | string written => (decode? written).map String.ofList
  | _ => none

end Json

end StackScript
