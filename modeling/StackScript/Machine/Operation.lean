import StackScript.Machine

/-!
What each operation does to the values on the stack.
-/

set_option autoImplicit false
set_option relaxedAutoImplicit false

namespace StackScript

variable {Body : Type}

/-! ## On values -/

namespace Value

/-- Arithmetic wraps around in 64 bits; a quotient is cut off towards zero. -/
def operateIntegers (op : Opcode) (left right : Int64) : Except RunError Int64 :=
  match op with
  | .add => .ok (left + right)
  | .sub => .ok (left - right)
  | .mul => .ok (left * right)
  | .div => if right = 0 then .error .divisionByZero else .ok (left / right)
  | op => .error (.unknownIntegerOperator op)

def compareIntegers (op : Opcode) (left right : Int64) : Except RunError Bool :=
  match op with
  | .equal => .ok (left == right)
  | .notEqual => .ok (left != right)
  | .greaterThan => .ok (right < left)
  | op => .error (.unknownIntegerOperator op)

/-- The value of an arithmetic operation; a string that it makes gets the label. -/
def operate (label : Label) (op : Opcode) (left right : Value Body) :
    Except RunError (Value Body) :=
  match left, right with
  | integer left, integer right => (operateIntegers op left right).map integer
  | string _ left, string _ right =>
    if op = .add then .ok (string label (left ++ right)) else .error (.unknownStringOperator op)
  | left, right => .error (.unsupportedBinaryOperands op left.kind right.kind)

/-- Integers are compared by number; of other values it is told only whether they are the same
one. -/
def compare (op : Opcode) (left right : Value Body) : Except RunError Bool :=
  match left, right with
  | integer left, integer right => compareIntegers op left right
  | left, right =>
    match op with
    | .equal => .ok (left.isSame right)
    | .notEqual => .ok !left.isSame right
    | op => .error (.unknownOperator op left.kind right.kind)

def negate : Value Body → Except RunError (Value Body)
  | integer value => .ok (integer (-value))
  | other => .error (.unsupportedNegation other.kind)

/-- What is found in a collection: null where there is nothing. -/
def lookUp (collection position : Value Body) : Except RunError (Value Body) :=
  match collection, position with
  | array _ elements, integer index =>
    .ok (if index < 0 then null else (elements[index.toInt.toNat]?).getD null)
  | hash _ entries, position =>
    match position.key? with
    | some key => .ok ((Entries.find? key entries).getD null)
    | none => .error (.unusableHashKey position.kind)
  | collection, _ => .error (.indexNotSupported collection.kind)

end Value

/-- Adds keys and values, each key before its value, to the entries of a hash. A last key without a
value is left out. -/
def Entries.addAll (entries : Entries Body) :
    List (Value Body) → Except RunError (Entries Body)
  | key :: value :: rest =>
    match key.key? with
    | some found => (entries.insert found value).addAll rest
    | none => .error (.unusableHashKey key.kind)
  | _ => .ok entries

namespace Run

/-! ## On the stack -/

def ofExcept {α : Type} : Except RunError α → Run α
  | .ok value => pure value
  | .error error => throw error

def arithmetic (op : Opcode) : Run Unit := do
  let right ← pop
  let left ← pop
  push (← ofExcept (left.operate (← freshLabel) op right))

def comparison (op : Opcode) : Run Unit := do
  let right ← pop
  let left ← pop
  push (.boolean (← ofExcept (left.compare op right)))

def loadConstant (entry : Nat) : Run Unit := do
  match ← constant? entry with
  | some value => push value
  | none => throw (.invalidConstant entry)

def loadGlobal (index : Nat) : Run Unit := do
  match ← readGlobal index with
  | some value => push value
  | none => throw (.uninitializedGlobal index)

def storeLocal (index : Nat) : Run Unit := do
  let value ← pop
  let slot := (← getFrame).base + index
  if stackSize ≤ slot then throw .stackOverflow
  writeSlot slot (some value)

def loadLocal (index : Nat) : Run Unit := do
  let slot := (← getFrame).base + index
  if stackSize ≤ slot then throw (.uninitializedLocal index)
  match ← readSlot slot with
  | some value => push value
  | none => throw (.uninitializedLocal index)

def loadFree (index : Nat) : Run Unit := do
  match (← getFrame).free[index]? with
  | some value => push value
  | none => throw (.invalidFreeIndex index)

def loadBuiltin (index : Nat) : Run Unit := do
  match Builtin.ofIndex? index with
  | some builtin => push (.builtin builtin)
  | none => throw (.unknownBuiltin index)

def makeArray (count : Nat) : Run Unit := do
  let elements ← takeTop count
  push (.array (← freshLabel) elements)

def makeHash (count : Nat) : Run Unit := do
  let items ← takeTop count
  let entries ← ofExcept (Entries.addAll [] items)
  push (.hash (← freshLabel) entries)

/-- A closure of the function under the entry, with the topmost `count` values. -/
def makeClosure (entry count : Nat) : Run Unit := do
  match ← constant? entry with
  | some (.routine _ routine) =>
    let free ← takeTop count
    push (.closure (← freshLabel) routine free)
  | _ => throw (.invalidConstant entry)

def index : Run Unit := do
  let position ← pop
  let collection ← pop
  push (← ofExcept (collection.lookUp position))

/-! ## Calls -/

/-- Lets the frame of a function begin behind the arguments. Locals that are no arguments are
unset, whatever the slots held. -/
def callClosure (label : Label) (routine : Routine) (free : List Value) (count : Nat) :
    Run Unit := do
  if count ≠ routine.parameters then throw (.wrongArity routine.parameters count)
  let machine ← get
  if frameLimit ≤ machine.callers.size + 1 then throw .frameOverflow
  if machine.sp < count then throw .outOfRange
  let base := machine.sp - count
  let top := base + max routine.locals count
  if stackSize < top then throw .stackOverflow
  clearSlots (base + count) (top - (base + count))
  modify fun machine ↦
    { machine with
      callers := machine.callers.push machine.frame
      frame := { label := label, routine := routine, free := free, ip := 0, base := base }
      sp := top }

/-- Puts the result in the place of the callee and the arguments. -/
def callBuiltin (builtin : Builtin) (count : Nat) : Run Unit := do
  let arguments ← takeTop count
  print (builtin.printed arguments)
  let result := builtin.call (← freshLabel) arguments
  match ← getSp with
  | 0 => throw .outOfRange
  | callee + 1 =>
    setSp callee
    push result

/-- Calls the value under the topmost `count` arguments. -/
def call (count : Nat) : Run Unit := do
  let sp ← getSp
  if sp < count + 1 then throw .stackUnderflow
  match ← readSlot (sp - (count + 1)) with
  | none => throw .stackUnderflow
  | some (.closure label routine free) => callClosure label routine free count
  | some (.builtin builtin) => callBuiltin builtin count
  | some other => throw (.notCallable other.kind)

/-- Goes back to the caller: the value takes the place of the callee, and all above it is left
behind. -/
def returnFromCall (value : Value) : Run Unit := do
  let machine ← get
  match machine.callers.back? with
  | none => throw .stackUnderflow
  | some caller =>
    let base := machine.frame.base
    modify fun machine ↦ { machine with callers := machine.callers.pop, frame := caller }
    match base with
    | 0 => throw .stackUnderflow
    | callee + 1 =>
      setSp callee
      push value

/-- Ends the whole run with a value, as if it had been discarded. -/
def finish (value : Value) : Run Unit := do
  setSp 0
  setLastPopped value

end Run

end StackScript
