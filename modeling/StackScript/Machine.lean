import StackScript.Bytecode
import StackScript.Builtin.Call

/-!
The state of a run, and the ways in which a run fails. One stack holds the operands and, from its
base on, the local slots of each function at work; a slot may be unset.
-/

set_option autoImplicit false
set_option relaxedAutoImplicit false

namespace StackScript

/-- How many slots the stack has. -/
def stackSize : Nat := 2048

/-- How many globals there are. -/
def globalsSize : Nat := 65536

/-- So many functions, the top-level code among them, cannot be at work at once. -/
def frameLimit : Nat := 1024

inductive RunError where
  | stackOverflow
  | stackUnderflow
  | frameOverflow
  | unknownOpcode (byte : UInt8)
  | truncatedInstruction (offset : Nat)
  | invalidConstant (entry : Nat)
  | invalidFreeIndex (index : Nat)
  | unknownBuiltin (index : Nat)
  | uninitializedGlobal (index : Nat)
  | uninitializedLocal (index : Nat)
  | unsupportedBinaryOperands (op : Opcode) (left right : Value.Kind)
  | unknownIntegerOperator (op : Opcode)
  | unknownStringOperator (op : Opcode)
  | unknownOperator (op : Opcode) (left right : Value.Kind)
  | unsupportedNegation (kind : Value.Kind)
  | divisionByZero
  | notCallable (kind : Value.Kind)
  | wrongArity (wanted got : Nat)
  | unusableHashKey (kind : Value.Kind)
  | indexNotSupported (kind : Value.Kind)
  /-- A slot beyond the stack or the globals. -/
  | outOfRange
  /-- More steps than a run may take. -/
  | stepLimit
  deriving DecidableEq, Repr

/-- The sign of an operation in messages. -/
def Opcode.sign : Opcode → String
  | add => "+"
  | sub => "-"
  | mul => "*"
  | div => "/"
  | equal => "=="
  | notEqual => "!="
  | greaterThan => ">"
  | other => other.name

def RunError.message : RunError → String
  | stackOverflow => "stack overflow"
  | stackUnderflow => "stack underflow"
  | frameOverflow => s!"frame overflow: more than {frameLimit} nested calls"
  | unknownOpcode byte => s!"unknown opcode: {byte.toNat}"
  | truncatedInstruction offset => s!"truncated instruction at {offset}"
  | invalidConstant entry => s!"constant {entry} is missing or not a function"
  | invalidFreeIndex index => s!"no free variable at index {index}"
  | unknownBuiltin index => s!"no builtin at index {index}"
  | uninitializedGlobal index => s!"global {index} read before it was set"
  | uninitializedLocal index => s!"local {index} read before it was set"
  | unsupportedBinaryOperands op left right =>
    s!"unsupported types for binary operation: {left.name} {op.sign} {right.name}"
  | unknownIntegerOperator op => "unknown integer operator: " ++ op.sign
  | unknownStringOperator op => "unknown string operator: " ++ op.sign
  | unknownOperator op left right => s!"unknown operator: {left.name} {op.sign} {right.name}"
  | unsupportedNegation kind => "unsupported type for negation: " ++ kind.name
  | divisionByZero => "division by zero"
  | notCallable kind => "calling non-function and non-built-in: " ++ kind.name
  | wrongArity wanted got => s!"wrong number of arguments: want={wanted}, got={got}"
  | unusableHashKey kind => "unusable as hash key: " ++ kind.name
  | indexNotSupported kind => "index operator not supported: " ++ kind.name
  | outOfRange => "slot out of range"
  | stepLimit => "step limit reached"

/-- A function at work: the closure, the offset of the next byte of its code, and the slot of its
first local. -/
structure Frame where
  label : Label
  routine : Routine
  free : List Value
  ip : Nat
  base : Nat
  deriving Inhabited

def Frame.closure (frame : Frame) : Value :=
  .closure frame.label frame.routine frame.free

structure Machine where
  constants : Array Value
  stack : Array (Option Value)
  /-- The slot above the topmost operand. -/
  sp : Nat
  globals : Array (Option Value)
  frame : Frame
  /-- The functions that wait for the one at work, the one that called it at the end. -/
  callers : Array Frame
  /-- The value that was discarded last. -/
  lastPopped : Option Value
  /-- The number of the next label. -/
  serial : Nat
  /-- What was printed. -/
  output : String
  deriving Inhabited

namespace Machine

/-- So many slots, filled up with unset ones or cut off. -/
def resize (size : Nat) (slots : Array (Option Value)) : Array (Option Value) :=
  slots.shrink size ++ Array.replicate (size - slots.size) none

/-- A machine before its first step. The top-level code runs as a function without parameters,
against the globals that an earlier program left; labels are given out from `serial` on. -/
def new (bytecode : Bytecode) (globals : Array (Option Value)) (serial : Nat) : Machine :=
  { constants := bytecode.constants
    stack := Array.replicate stackSize none
    sp := 0
    globals := resize globalsSize globals
    frame :=
      { label := .program, routine := ⟨bytecode.code, 0, 0⟩, free := [], ip := 0, base := 0 }
    callers := #[]
    lastPopped := none
    serial := serial
    output := "" }

/-- The topmost operand, if its slot is set. -/
def stackTop (machine : Machine) : Option Value :=
  if machine.sp = 0 then none else machine.stack[machine.sp - 1]?.join

@[simp] theorem size_resize (size : Nat) (slots : Array (Option Value)) :
    (resize size slots).size = size := by
  simp only [resize, Array.size_append, Array.size_shrink, Array.size_replicate]
  omega

end Machine

/-- Steps of a run. An error keeps what was done before it. -/
abbrev Run := EStateM RunError Machine

namespace Run

/-! ## Slots -/

def readSlot (slot : Nat) : Run (Option Value) := fun machine ↦
  match machine.stack[slot]? with
  | some content => .ok content machine
  | none => .error .outOfRange machine

def writeSlot (slot : Nat) (content : Option Value) : Run Unit := fun machine ↦
  if slot < machine.stack.size then
    .ok () { machine with stack := machine.stack.setIfInBounds slot content }
  else .error .outOfRange machine

def setSp (sp : Nat) : Run Unit := fun machine ↦
  .ok () { machine with sp := sp }

def getSp : Run Nat := fun machine ↦
  .ok machine.sp machine

/-- Takes the value out of a slot, which is unset then. -/
def takeSlot (slot : Nat) : Run Value := do
  match ← readSlot slot with
  | some value =>
    writeSlot slot none
    return value
  | none => throw .stackUnderflow

def push (value : Value) : Run Unit := do
  let sp ← getSp
  if stackSize ≤ sp then throw .stackOverflow
  writeSlot sp (some value)
  setSp (sp + 1)

def pop : Run Value := do
  match ← getSp with
  | 0 => throw .stackUnderflow
  | top + 1 =>
    let value ← takeSlot top
    setSp top
    return value

/-- Takes the values out of so many slots from `slot` on; `done` holds those taken before, the
last of them first. -/
def takeSlots (slot : Nat) (done : List Value) : Nat → Run (List Value)
  | 0 => return done.reverse
  | count + 1 => do takeSlots (slot + 1) ((← takeSlot slot) :: done) count

/-- Removes the topmost `count` values, the lowest of them first in the result. -/
def takeTop (count : Nat) : Run (List Value) := do
  let sp ← getSp
  if sp < count then throw .stackUnderflow
  let values ← takeSlots (sp - count) [] count
  setSp (sp - count)
  return values

def clearSlots (slot : Nat) : Nat → Run Unit
  | 0 => pure ()
  | count + 1 => do
    writeSlot slot none
    clearSlots (slot + 1) count

/-! ## Code -/

def setIp (ip : Nat) : Run Unit := fun machine ↦
  .ok () { machine with frame := { machine.frame with ip := ip } }

/-- The next operation, none at the end of the code. -/
def fetch : Run (Option Opcode) := fun machine ↦
  match machine.frame.routine.code[machine.frame.ip]? with
  | none => .ok none machine
  | some byte =>
    let machine :=
      { machine with frame := { machine.frame with ip := machine.frame.ip + 1 } }
    match Opcode.ofByte? byte with
    | some opcode => .ok (some opcode) machine
    | none => .error (.unknownOpcode byte) machine

/-- The next operand, of one byte. -/
def operandByte : Run Nat := fun machine ↦
  let ip := machine.frame.ip
  match machine.frame.routine.code[ip]? with
  | some byte => .ok byte.toNat { machine with frame := { machine.frame with ip := ip + 1 } }
  | none => .error (.truncatedInstruction ip) machine

/-- The next operand, of two bytes. -/
def operandWord : Run Nat := fun machine ↦
  let ip := machine.frame.ip
  match machine.frame.routine.code[ip]?, machine.frame.routine.code[ip + 1]? with
  | some high, some low =>
    .ok (256 * high.toNat + low.toNat)
      { machine with frame := { machine.frame with ip := ip + 2 } }
  | _, _ => .error (.truncatedInstruction ip) machine

/-! ## The rest of the state -/

def atTopLevel : Run Bool := fun machine ↦
  .ok machine.callers.isEmpty machine

def getFrame : Run Frame := fun machine ↦
  .ok machine.frame machine

def constant? (entry : Nat) : Run (Option Value) := fun machine ↦
  .ok machine.constants[entry]? machine

def readGlobal (index : Nat) : Run (Option Value) := fun machine ↦
  match machine.globals[index]? with
  | some content => .ok content machine
  | none => .error .outOfRange machine

def writeGlobal (index : Nat) (value : Value) : Run Unit := fun machine ↦
  if index < machine.globals.size then
    .ok () { machine with globals := machine.globals.setIfInBounds index (some value) }
  else .error .outOfRange machine

def setLastPopped (value : Value) : Run Unit := fun machine ↦
  .ok () { machine with lastPopped := some value }

/-- A label that no value has yet. -/
def freshLabel : Run Label := fun machine ↦
  .ok (.heap machine.serial) { machine with serial := machine.serial + 1 }

def print (text : String) : Run Unit := fun machine ↦
  .ok () { machine with output := machine.output ++ text }

end Run

end StackScript
