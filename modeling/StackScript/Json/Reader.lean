import StackScript.Json

/-!
JSON values from their text. The whole text must be one value, with white space around it and
between its parts. Each function below reads one form at the head of a text and returns it with what
follows it.
-/

set_option autoImplicit false
set_option relaxedAutoImplicit false

namespace StackScript.Json

def isBlank (c : Char) : Bool :=
  c == ' ' || c == '\t' || c == '\n' || c == '\r'

def skipBlanks (text : List Char) : List Char :=
  text.dropWhile isBlank

/-- One digit at least. -/
def digits? (text : List Char) : Option (List Char × List Char) :=
  match text.takeWhile Char.isDigit with
  | [] => none
  | digits => some (digits, text.dropWhile Char.isDigit)

/-- A point and its digits, or nothing. -/
def fraction? (text : List Char) : Option (List Char × List Char) :=
  match text with
  | '.' :: text => do
    let (digits, rest) ← digits? text
    return ('.' :: digits, rest)
  | text => some ([], text)

/-- The power of ten behind a number, or nothing. -/
def exponent? (text : List Char) : Option (List Char × List Char) :=
  match text with
  | mark :: text =>
    if mark = 'e' ∨ mark = 'E' then
      match text with
      | '+' :: text => do
        let (digits, rest) ← digits? text
        return (mark :: '+' :: digits, rest)
      | '-' :: text => do
        let (digits, rest) ← digits? text
        return (mark :: '-' :: digits, rest)
      | text => do
        let (digits, rest) ← digits? text
        return (mark :: digits, rest)
    else some ([], mark :: text)
  | [] => some ([], [])

/-- A number without its sign. No zero stands before other digits. -/
def unsigned? (negative : Bool) (text : List Char) : Option (Json × List Char) := do
  let (digits, rest) ← digits? text
  if digits.head? = some '0' ∧ digits.length ≠ 1 then none
  else
    let (fraction, rest) ← fraction? rest
    let (power, rest) ← exponent? rest
    let magnitude := digits.foldl (fun value digit ↦ 10 * value + (digit.toNat - '0'.toNat)) 0
    let whole := fraction.isEmpty && power.isEmpty && !(negative && magnitude == 0)
    let written := (if negative then ['-'] else []) ++ digits ++ fraction ++ power
    return (if whole then integer (if negative then -magnitude else magnitude)
      else decimal written, rest)

def number? (text : List Char) : Option (Json × List Char) :=
  match text with
  | '-' :: text => unsigned? true text
  | text => unsigned? false text

/-- A string behind its opening quote, up to the quote that closes it; `done` holds what is
passed, the last of it first. -/
def quotedFrom (done : List Char) : List Char → Option (List Char × List Char)
  | [] => none
  | '"' :: rest => if (units? done.reverse).isSome then some (done.reverse, rest) else none
  | '\\' :: c :: rest => quotedFrom (c :: '\\' :: done) rest
  | c :: rest => quotedFrom (c :: done) rest

mutual

/-- The value at the head of a text. The reading recurs on a bound for its steps, which `parse`
takes from the length of the text. -/
def value? (fuel : Nat) (text : List Char) : Option (Json × List Char) :=
  match fuel with
  | 0 => none
  | fuel + 1 =>
    match skipBlanks text with
    | '"' :: text => do
      let (written, rest) ← quotedFrom [] text
      return (string written, rest)
    | '[' :: text =>
      match skipBlanks text with
      | ']' :: rest => some (array [], rest)
      | text => elementsFrom fuel [] text
    | '\x7b' :: text =>
      match skipBlanks text with
      | '\x7d' :: rest => some (object [], rest)
      | text => membersFrom fuel [] text
    | 'n' :: 'u' :: 'l' :: 'l' :: rest => some (null, rest)
    | 't' :: 'r' :: 'u' :: 'e' :: rest => some (bool true, rest)
    | 'f' :: 'a' :: 'l' :: 's' :: 'e' :: rest => some (bool false, rest)
    | text => number? text

/-- Elements up to the closing bracket; `done` holds those read, the last of them first. -/
def elementsFrom (fuel : Nat) (done : List Json) (text : List Char) :
    Option (Json × List Char) :=
  match fuel with
  | 0 => none
  | fuel + 1 =>
    match value? fuel text with
    | none => none
    | some (element, rest) =>
      match skipBlanks rest with
      | ',' :: rest => elementsFrom fuel (element :: done) rest
      | ']' :: rest => some (array (element :: done).reverse, rest)
      | _ => none

/-- Members up to the closing brace; `done` holds those read, the last of them first. -/
def membersFrom (fuel : Nat) (done : List (List Char × Json)) (text : List Char) :
    Option (Json × List Char) :=
  match fuel with
  | 0 => none
  | fuel + 1 =>
    match skipBlanks text with
    | '"' :: text =>
      match quotedFrom [] text with
      | none => none
      | some (key, rest) =>
        match skipBlanks rest with
        | ':' :: rest =>
          match value? fuel rest with
          | none => none
          | some (value, rest) =>
            match skipBlanks rest with
            | ',' :: rest => membersFrom fuel ((key, value) :: done) rest
            | '\x7d' :: rest => some (object ((key, value) :: done).reverse, rest)
            | _ => none
        | _ => none
    | _ => none

end

def parse? (text : String) : Option Json :=
  let chars := text.toList
  match value? (2 * chars.length + 2) chars with
  | some (json, rest) => if (skipBlanks rest).isEmpty then some json else none
  | none => none

end StackScript.Json
