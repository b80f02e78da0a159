import StackScript.Value

/-!
What the provided functions do. A wrong use yields an error value, so that a call always yields
some value.
-/

set_option autoImplicit false
set_option relaxedAutoImplicit false

namespace StackScript.Builtin

variable {Body : Type}

def wrongCount (arguments : List (Value Body)) (wanted : Nat) : Value Body :=
  .error s!"wrong number of arguments, got={arguments.length}, want={wanted}"

def wantsArray (builtin : Builtin) (got : Value Body) : Value Body :=
  .error ("argument to `" ++ builtin.name ++ "` must be ARRAY, got " ++ got.kind.name)

/-- The characters of a string or the elements of an array. -/
def callLen : List (Value Body) → Value Body
  | [.string _ content] => .integer (Int64.ofNat content.length)
  | [.array _ elements] => .integer (Int64.ofNat elements.length)
  | [other] => .error ("argument to `len` not supported, got=" ++ other.kind.name)
  | arguments => wrongCount arguments 1

/-- An element of the one argument, null if the array has none. -/
def callElement (builtin : Builtin) (element? : List (Value Body) → Option (Value Body)) :
    List (Value Body) → Value Body
  | [.array _ elements] => (element? elements).getD .null
  | [other] => wantsArray builtin other
  | arguments => wrongCount arguments 1

/-- All elements but the first one as a new array. -/
def callRest (label : Label) : List (Value Body) → Value Body
  | [.array _ []] => .null
  | [.array _ (_ :: others)] => .array label others
  | [other] => wantsArray rest other
  | arguments => wrongCount arguments 1

/-- A new array with one more element at the end. -/
def callPush (label : Label) : List (Value Body) → Value Body
  | [.array _ elements, value] => .array label (elements ++ [value])
  | [other, _] => wantsArray push other
  | arguments => wrongCount arguments 2

/-- The value of a call; an array that it makes gets the label. -/
def call (label : Label) (builtin : Builtin) (arguments : List (Value Body)) : Value Body :=
  match builtin with
  | len => callLen arguments
  | puts => .null
  | first => callElement first List.head? arguments
  | last => callElement last List.getLast? arguments
  | rest => callRest label arguments
  | push => callPush label arguments

/-- What a call prints: each argument on a line. -/
def printed (builtin : Builtin) (arguments : List (Value Body)) : String :=
  match builtin with
  | puts => arguments.foldl (fun text argument ↦ text ++ argument.inspect ++ "\n") ""
  | _ => ""

end StackScript.Builtin
