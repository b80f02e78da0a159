import StackScript.Machine.Run
import StackScript.Proofs.Instruction.Stream
import StackScript.Proofs.StateMonad

/-!
One step of a machine, read from the bytes of its code. An operation reads operands of the widths
that are fixed for it, one after the other, and is then carried out with them (`execute_eq`); they
are the ones that are decoded from the bytes ahead (`operands_eq`). So a step on a whole instruction
moves behind it and then performs it with the operands it was written with (`step_eq_perform`); at
the end of its code a function goes back to its caller (`step_at_end`).
-/

set_option autoImplicit false
set_option relaxedAutoImplicit false

namespace StackScript

open Instruction Run
open Opcode (Width)

/-- So many bytes of the code are behind the machine. -/
def Machine.advance (machine : Machine) (count : Nat) : Machine :=
  { machine with frame := { machine.frame with ip := machine.frame.ip + count } }

@[simp] theorem Machine.advance_advance (machine : Machine) (first second : Nat) :
    (machine.advance first).advance second = machine.advance (first + second) := by
  simp [advance, Nat.add_assoc]

/-- The bytes of the code that the function at work has not come to. -/
def Machine.ahead (machine : Machine) : List UInt8 :=
  machine.frame.routine.code.toList.drop machine.frame.ip

theorem Machine.ahead_advance (machine : Machine) (count : Nat) :
    (machine.advance count).ahead = machine.ahead.drop count := by
  simp only [ahead, advance, List.drop_drop]

theorem Machine.getElem?_ahead (machine : Machine) (i : Nat) :
    machine.ahead[i]? = machine.frame.routine.code[machine.frame.ip + i]? := by
  rw [ahead, List.getElem?_drop, Array.getElem?_toList]

namespace Run

/-- Carries out an instruction whose operands were read. -/
def perform (instruction : Instruction) : Run Progress :=
  match instruction.opcode, instruction.operands with
  | .constant, [entry] => goOn (loadConstant entry)
  | .jump, [target] => goOn (setIp target)
  | .jumpNotTruthy, [target] => goOn do if !(← pop).isTruthy then setIp target
  | .setGlobal, [index] => goOn do writeGlobal index (← pop)
  | .getGlobal, [index] => goOn (loadGlobal index)
  | .setLocal, [index] => goOn (storeLocal index)
  | .getLocal, [index] => goOn (loadLocal index)
  | .getFree, [index] => goOn (loadFree index)
  | .getBuiltin, [index] => goOn (loadBuiltin index)
  | .array, [count] => goOn (makeArray count)
  | .hash, [count] => goOn (makeHash count)
  | .call, [count] => goOn (call count)
  | .closure, [entry, count] => goOn (makeClosure entry count)
  | opcode, _ => execute opcode

/-! ### Operands -/

/-- The next operand, of this width. -/
def operand : Width → Run Nat
  | .one => operandByte
  | .two => operandWord

/-- The next operands, of these widths. -/
def operands : List Width → Run (List Nat)
  | [] => pure []
  | width :: widths => do
    let first ← operand width
    return first :: (← operands widths)

/-- An operation reads all of its operands and is then carried out with them. -/
theorem execute_eq (opcode : Opcode) :
    execute opcode = operands opcode.widths >>= fun found ↦ perform ⟨opcode, found⟩ := by
  cases opcode
  case closure | constant | jumpNotTruthy | jump | setGlobal | getGlobal | array | hash | setLocal
      | getLocal | getFree | getBuiltin | call =>
    simp only [execute, Opcode.widths, operands, operand, goOn, perform, bind_assoc, pure_bind]
  all_goals rfl

variable {machine : Machine}

theorem operand_eq (width : Width) (machine : Machine) :
    operand width machine =
      match readOperand? width machine.ahead with
      | some (found, _) => .ok found (machine.advance width.bytes)
      | none => .error (.truncatedInstruction machine.frame.ip) machine := by
  have hfirst := machine.getElem?_ahead 0
  have hsecond := machine.getElem?_ahead 1
  cases width with
  | one =>
    unfold operand operandByte
    rw [Nat.add_zero] at hfirst
    rcases hahead : machine.ahead with _ | ⟨byte, rest⟩
    · rw [hahead] at hfirst
      simp only [← hfirst, List.getElem?_nil]
      rfl
    · rw [hahead] at hfirst
      simp only [← hfirst, List.getElem?_cons_zero]
      rfl
  | two =>
    unfold operand operandWord
    rw [Nat.add_zero] at hfirst
    rcases hahead : machine.ahead with _ | ⟨high, _ | ⟨low, rest⟩⟩
    · rw [hahead] at hfirst
      simp only [← hfirst, List.getElem?_nil]
      rfl
    · rw [hahead] at hfirst hsecond
      simp only [← hfirst, ← hsecond]
      rfl
    · rw [hahead] at hfirst hsecond
      simp only [← hfirst, ← hsecond]
      rfl

theorem rest_of_readOperand? {width : Width} {bytes rest : List UInt8} {found : Nat}
    (h : readOperand? width bytes = some (found, rest)) : rest = bytes.drop width.bytes := by
  cases width
  all_goals
    obtain ⟨_, _, hpair⟩ := Option.map_eq_some_iff.mp h
    cases hpair
    rfl

/-- Operands are read as they are decoded from the bytes ahead. -/
theorem operands_eq {widths : List Width} {found : List Nat} {rest : List UInt8}
    (h : readOperands? widths machine.ahead = some (found, rest)) :
    operands widths machine = .ok found (machine.advance (Width.total widths)) := by
  induction widths generalizing machine found with
  | nil =>
    cases h
    rfl
  | cons width widths ih =>
    obtain ⟨⟨first, middle⟩, hfirst, hothers⟩ := Option.bind_eq_some_iff.mp h
    obtain ⟨⟨others, last⟩, hrest, hend⟩ := Option.bind_eq_some_iff.mp hothers
    cases hend
    have hread := operand_eq width machine
    rw [hfirst] at hread
    rw [rest_of_readOperand? hfirst, ← machine.ahead_advance] at hrest
    rw [operands, bind_of_ok hread, bind_of_ok (ih hrest), Machine.advance_advance]
    rfl

/-! ### Steps -/

variable {byte : UInt8} {bytes : List UInt8} {opcode : Opcode}

theorem fetch_eq (h : machine.ahead = byte :: bytes) :
    fetch machine =
      match Opcode.ofByte? byte with
      | some opcode => .ok (some opcode) (machine.advance 1)
      | none => .error (.unknownOpcode byte) (machine.advance 1) := by
  have hbyte := machine.getElem?_ahead 0
  rw [h, Nat.add_zero, List.getElem?_cons_zero] at hbyte
  simp only [fetch, ← hbyte]
  rfl

/-- Behind an operation code the operands are read, and then the instruction is carried out. -/
theorem step_eq_operands (h : machine.ahead = byte :: bytes)
    (hbyte : Opcode.ofByte? byte = some opcode) :
    step machine =
      (operands opcode.widths >>= fun found ↦ perform ⟨opcode, found⟩) (machine.advance 1) := by
  have hfetch := fetch_eq h
  rw [hbyte] at hfetch
  rw [← execute_eq]
  exact bind_of_ok hfetch

theorem ahead_of_cons (h : machine.ahead = byte :: bytes) : (machine.advance 1).ahead = bytes := by
  rw [Machine.ahead_advance, h]
  rfl

theorem step_of_decoded {found : List Nat} {rest : List UInt8} (h : machine.ahead = byte :: bytes)
    (hbyte : Opcode.ofByte? byte = some opcode)
    (hbytes : readOperands? opcode.widths bytes = some (found, rest)) :
    step machine = perform ⟨opcode, found⟩ (machine.advance opcode.byteLength) := by
  rw [← ahead_of_cons h] at hbytes
  rw [step_eq_operands h hbyte, bind_of_ok (operands_eq hbytes), Machine.advance_advance]
  rfl

theorem ahead_of_loaded {instruction : Instruction}
    (h : Loaded machine.frame.routine.code machine.frame.ip [instruction]) :
    ∃ rest, machine.ahead = instruction.bytes ++ rest := by
  obtain ⟨before, rest, hcode, hip⟩ := h
  refine ⟨rest, ?_⟩
  rw [Machine.ahead, ← hip, hcode, encodeAll_cons, encodeAll_nil, List.append_nil,
    List.append_assoc, List.drop_left]

theorem fetch_of_loaded {instruction : Instruction}
    (h : Loaded machine.frame.routine.code machine.frame.ip [instruction]) :
    fetch machine = .ok (some instruction.opcode) (machine.advance 1) := by
  obtain ⟨rest, hahead⟩ := ahead_of_loaded h
  have hfetch := fetch_eq hahead
  rwa [Opcode.ofByte?_toByte] at hfetch

/-- A step on a whole instruction. -/
theorem step_eq_perform {instruction : Instruction}
    (h : Loaded machine.frame.routine.code machine.frame.ip [instruction])
    (hfits : instruction.Fits) :
    step machine = perform instruction (machine.advance instruction.length) := by
  obtain ⟨rest, hahead⟩ := ahead_of_loaded h
  exact step_of_decoded hahead (Opcode.ofByte?_toByte _) (readOperands?_encodeOperands hfits rest)

/-- A step at the end of the code. -/
theorem step_at_end (h : machine.frame.ip = machine.frame.routine.code.size) :
    step machine = if machine.callers.isEmpty then .ok .finished machine
      else goOn (returnFromCall .null) machine := by
  have hend : machine.frame.routine.code[machine.frame.ip]? = none := by simp [h]
  have hfetch : fetch machine = .ok none machine := by simp only [fetch, hend]
  rw [step, bind_of_ok hfetch]
  change (if machine.callers.isEmpty then pure .finished else goOn (returnFromCall .null) :
    Run Progress) machine = _
  split <;> rfl

end Run

end StackScript
