import StackScript.Builtin

/-!
The values that programs compute with. A value that is built rather than written out carries a
label of the place or moment of its making; two such values are the same one if their labels are
equal, whatever they hold. Hash entries are kept in the order of their keys.
-/

set_option autoImplicit false
set_option relaxedAutoImplicit false

namespace StackScript

/-- The making of a value: the whole program's own closure, an entry of the constant pool, or a
moment of a run. -/
inductive Label where
  | program
  | literal (entry : Nat)
  | heap (serial : Nat)
  deriving DecidableEq, Repr, Inhabited

/-- A compiled function body: its code, the number of its local slots, parameters among them, and
of its parameters. -/
structure Routine where
  code : Array UInt8
  locals : Nat
  parameters : Nat
  deriving DecidableEq, Repr, Inhabited

/-- The values that a hash can be looked up by, without their labels. -/
inductive Key where
  | integer (value : Int64)
  | boolean (value : Bool)
  | string (content : String)
  deriving DecidableEq, Repr, Inhabited

namespace Key

/-- Integers by number, then `false` and `true`, then strings by their characters. -/
def before : Key → Key → Bool
  | integer a, integer b => a < b
  | integer _, _ => true
  | boolean a, boolean b => !a && b
  | boolean _, string _ => true
  | string a, string b => a < b
  | _, _ => false

def text : Key → String
  | integer value => toString value
  | boolean value => toString value
  | string content => content

end Key

/-- A value; `Body` is what a function is run from, on the machine a compiled body. -/
inductive Value (Body : Type := Routine) where
  | integer (value : Int64)
  | boolean (value : Bool)
  | null
  | string (label : Label) (content : String)
  | array (label : Label) (elements : List (Value Body))
  | hash (label : Label) (entries : List (Key × Value Body))
  | routine (label : Label) (routine : Routine)
  /-- A function with the values that it took from around it. -/
  | closure (label : Label) (body : Body) (free : List (Value Body))
  | builtin (builtin : Builtin)
  | error (message : String)
  | returned (value : Value Body)

variable {Body : Type}

instance : Inhabited (Value Body) := ⟨.null⟩

inductive Value.Kind where
  | integer
  | boolean
  | null
  | string
  | array
  | hash
  | routine
  | closure
  | builtin
  | error
  | returned
  deriving DecidableEq, Repr

/-- The name of a kind of value in messages. -/
def Value.Kind.name : Value.Kind → String
  | integer => "INTEGER"
  | boolean => "BOOLEAN"
  | null => "NULL"
  | string => "STRING"
  | array => "ARRAY"
  | hash => "HASH"
  | routine => "COMPILED_FUNCTION"
  | closure => "CLOSURE"
  | builtin => "BUILTIN"
  | error => "ERROR"
  | returned => "RETURN_VALUE"

namespace Value

def kind : Value Body → Kind
  | integer _ => .integer
  | boolean _ => .boolean
  | null => .null
  | string _ _ => .string
  | array _ _ => .array
  | hash _ _ => .hash
  | routine _ _ => .routine
  | closure _ _ _ => .closure
  | builtin _ => .builtin
  | error _ => .error
  | returned _ => .returned

/-- All values but `false` and null count as true. -/
def isTruthy : Value Body → Bool
  | boolean false => false
  | null => false
  | _ => true

def key? : Value Body → Option Key
  | integer value => some (.integer value)
  | boolean value => some (.boolean value)
  | string _ content => some (.string content)
  | _ => none

/-- Whether two values are the same one: by content where a value is no more than that, else by
label. An error is the same as nothing, not even as itself. -/
def isSame : Value Body → Value Body → Bool
  | integer a, integer b => a == b
  | boolean a, boolean b => a == b
  | null, null => true
  | builtin a, builtin b => a == b
  | string a _, string b _ => a == b
  | array a _, array b _ => a == b
  | hash a _, hash b _ => a == b
  | routine a _, routine b _ => a == b
  | closure a _ _, closure b _ _ => a == b
  | _, _ => false

mutual

/-- Whether two values have equal content, whatever their labels. -/
def isEqual : Value → Value → Bool
  | integer a, integer b => a == b
  | boolean a, boolean b => a == b
  | null, null => true
  | string _ a, string _ b => a == b
  | array _ a, array _ b => areEqual a b
  | hash _ a, hash _ b => areEqualEntries a b
  | routine _ a, routine _ b => a == b
  | closure _ a free, closure _ b free' => a == b && areEqual free free'
  | builtin a, builtin b => a == b
  | error a, error b => a == b
  | returned a, returned b => isEqual a b
  | _, _ => false

def areEqual : List Value → List Value → Bool
  | [], [] => true
  | a :: as, b :: bs => isEqual a b && areEqual as bs
  | _, _ => false

def areEqualEntries : List (Key × Value) → List (Key × Value) → Bool
  | [], [] => true
  | (k, a) :: as, (l, b) :: bs => k == l && isEqual a b && areEqualEntries as bs
  | _, _ => false

end

mutual

/-- A value as it is shown. A string is shown bare. The entries of a hash may be shown in any order;
here that is the order in which they are held, and no result depends on which one it is. -/
def inspect : Value Body → String
  | integer value => toString value
  | boolean value => toString value
  | null => "null"
  | string _ content => content
  | array _ elements => "[" ++ ", ".intercalate (inspectAll elements) ++ "]"
  | hash _ entries => "\x7b" ++ ", ".intercalate (inspectEntries entries) ++ "\x7d"
  | routine _ body => s!"CompiledFunction[{body.code.size} bytes]"
  | closure _ _ free => s!"Closure[{free.length} free]"
  | builtin function => "builtin function " ++ function.name
  | error message => "ERROR: " ++ message
  | returned value => inspect value

def inspectAll : List (Value Body) → List String
  | [] => []
  | value :: rest => inspect value :: inspectAll rest

def inspectEntries : List (Key × Value Body) → List String
  | [] => []
  | (key, value) :: rest => (key.text ++ ": " ++ inspect value) :: inspectEntries rest

end

end Value

/-- Entries of a hash, each key once. Hashes have no order of their own. One is fixed here, that of
the keys, so that equal hashes are the same list; no result depends on which one it is. -/
abbrev Entries (Body : Type := Routine) := List (Key × Value Body)

namespace Entries

/-- Puts an entry in its place; one of an equal key gives way. -/
def insert (key : Key) (value : Value Body) : Entries Body → Entries Body
  | [] => [(key, value)]
  | (other, held) :: rest =>
    if key = other then (key, value) :: rest
    else if key.before other then (key, value) :: (other, held) :: rest
    else (other, held) :: insert key value rest

def find? (key : Key) : Entries Body → Option (Value Body)
  | [] => none
  | (other, held) :: rest => if key = other then some held else find? key rest

/-- The last value put under a key is the one found there. -/
theorem find?_insert (key other : Key) (value : Value Body) (entries : Entries Body) :
    find? other (entries.insert key value) =
      if other = key then some value else entries.find? other := by
  induction entries with
  | nil => rfl
  | cons entry rest ih =>
    obtain ⟨name, held⟩ := entry
    unfold insert
    split
    · next same => subst same; by_cases h : other = key <;> simp [find?, h]
    split
    · by_cases h : other = key <;> simp [find?, h]
    · next different _ =>
      simp only [find?, ih]
      by_cases h : other = name
      · subst h
        simp [Ne.symm different]
      · simp [h]

end Entries

end StackScript
