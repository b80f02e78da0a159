import StackScript.Machine.Operation

/-!
Runs. A run takes one step after the other until the program ends or a step fails; it can then be
taken up again where it stopped.
-/

set_option autoImplicit false
set_option relaxedAutoImplicit false

namespace StackScript

/-- Whether the program goes on after a step. -/
inductive Progress where
  | running
  | finished
  deriving DecidableEq, Repr

namespace Run

/-- An action after which the program goes on. -/
def goOn (action : Run Unit) : Run Progress := do
  action
  return .running

/-- Goes back to the caller with a value; from the top-level code, ends the program with it. -/
def returnWith (value : Value) : Run Progress := do
  if ← atTopLevel then
    finish value
    return .finished
  else
    returnFromCall value
    return .running

/-- Reads the operands of an operation and carries it out. -/
def execute : Opcode → Run Progress
  | .constant => goOn do loadConstant (← operandWord)
  | .add => goOn (arithmetic .add)
  | .sub => goOn (arithmetic .sub)
  | .mul => goOn (arithmetic .mul)
  | .div => goOn (arithmetic .div)
  | .equal => goOn (comparison .equal)
  | .notEqual => goOn (comparison .notEqual)
  | .greaterThan => goOn (comparison .greaterThan)
  | .bang => goOn do push (.boolean !(← pop).isTruthy)
  | .minus => goOn do push (← ofExcept (← pop).negate)
  | .true => goOn (push (.boolean true))
  | .false => goOn (push (.boolean false))
  | .null => goOn (push .null)
  | .pop => goOn do setLastPopped (← pop)
  | .jump => goOn do setIp (← operandWord)
  | .jumpNotTruthy => goOn do
    let target ← operandWord
    if !(← pop).isTruthy then setIp target
  | .setGlobal => goOn do
    let index ← operandWord
    writeGlobal index (← pop)
  | .getGlobal => goOn do loadGlobal (← operandWord)
  | .setLocal => goOn do storeLocal (← operandByte)
  | .getLocal => goOn do loadLocal (← operandByte)
  | .getFree => goOn do loadFree (← operandByte)
  | .getBuiltin => goOn do loadBuiltin (← operandByte)
  | .currentClosure => goOn do push (← getFrame).closure
  | .array => goOn do makeArray (← operandWord)
  | .hash => goOn do makeHash (← operandWord)
  | .index => goOn index
  | .call => goOn do call (← operandByte)
  | .closure => goOn do
    let entry ← operandWord
    makeClosure entry (← operandByte)
  | .returnValue => do returnWith (← pop)
  | .ret => returnWith .null

/-- One operation. At the end of its code a function returns null, and the program ends. -/
def step : Run Progress := do
  match ← fetch with
  | some opcode => execute opcode
  | none =>
    if ← atTopLevel then return .finished
    returnFromCall .null
    return .running

/-- Steps until the program ends, at most so many. -/
def steps : Nat → Run Unit
  | 0 => throw .stepLimit
  | count + 1 => do
    match ← step with
    | .finished => return ()
    | .running => steps count

/-- The steps of one round. -/
def roundLength : Nat := 0x100000000

/-- Rounds of steps until the program ends, at most so many. -/
def rounds : Nat → Run Unit
  | 0 => throw .stepLimit
  | count + 1 => fun machine ↦
    match steps roundLength machine with
    | .error .stepLimit machine => rounds count machine
    | result => result

end Run

namespace Machine

/-- The length of the longest code in the constants and in the frame at work. -/
def longestCode (machine : Machine) : Nat :=
  machine.constants.foldl
    (fun longest constant ↦
      match constant with
      | .routine _ routine => max longest routine.code.size
      | _ => longest)
    machine.frame.routine.code.size

/-- More steps than a run can take whose jumps all lead forward: with at most `frameLimit` functions
at work, the offsets in their code, the outermost first, grow in the lexicographic order. -/
def stepBound (machine : Machine) : Nat :=
  Nat.pow (machine.longestCode + 2) frameLimit

end Machine

/-- Runs the program from where it stands to its end. -/
def Run.run : Run Unit := fun machine ↦
  Run.rounds machine.stepBound machine

end StackScript
