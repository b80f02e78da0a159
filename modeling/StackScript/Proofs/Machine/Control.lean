import StackScript.Machine.Run
import StackScript.Proofs.StateMonad

/-!
Calls and returns as one equation each: which check fails first, and what the machine is when none
does. And the errors that operations on values come to (`RunError.isOfValues`).
-/

set_option autoImplicit false
set_option relaxedAutoImplicit false

namespace StackScript

/-- The errors of operations on values that they are not meant for. -/
def RunError.isOfValues : RunError → Bool
  | unsupportedBinaryOperands .. | unknownStringOperator _ | unknownOperator ..
  | unsupportedNegation _ | divisionByZero | unusableHashKey _ | indexNotSupported _ => true
  | _ => false

namespace Run

variable {machine : Machine}

theorem getSp_bind {β : Type} (next : Nat → Run β) :
    (getSp >>= next) machine = next machine.sp machine := rfl

theorem get_bind {β : Type} (next : Machine → Run β) :
    (get >>= next) machine = next machine machine := rfl

theorem getFrame_bind {β : Type} (next : Frame → Run β) :
    (getFrame >>= next) machine = next machine.frame machine := rfl

theorem returnFromCall_eq (machine : Machine) (value : Value) :
    returnFromCall value machine =
      match machine.callers.back? with
      | none => .error .stackUnderflow machine
      | some caller =>
        match machine.frame.base with
        | 0 => .error .stackUnderflow
          { machine with callers := machine.callers.pop, frame := caller }
        | callee + 1 => push value
          { machine with callers := machine.callers.pop, frame := caller, sp := callee } := by
  unfold returnFromCall
  rw [get_bind]
  cases machine.callers.back? with
  | none => rfl
  | some caller => cases machine.frame.base <;> rfl

theorem callClosure_eq (machine : Machine) (label : Label) (routine : Routine)
    (free : List Value) (count : Nat) :
    callClosure label routine free count machine =
      if count ≠ routine.parameters then
        .error (.wrongArity routine.parameters count) machine
      else if frameLimit ≤ machine.callers.size + 1 then .error .frameOverflow machine
      else if machine.sp < count then .error .outOfRange machine
      else if stackSize < machine.sp - count + max routine.locals count then
        .error .stackOverflow machine
      else
        match clearSlots machine.sp (max routine.locals count - count) machine with
        | .ok _ cleared => .ok ()
          { cleared with
            callers := cleared.callers.push cleared.frame
            frame :=
              { label := label, routine := routine, free := free, ip := 0
                base := machine.sp - count }
            sp := machine.sp - count + max routine.locals count }
        | .error error cleared => .error error cleared := by
  unfold callClosure
  dsimp only
  rw [check_apply, get_bind, check_apply, check_apply, check_apply]
  by_cases hcount : machine.sp < count
  · simp only [hcount, if_true]
  · have hbase : machine.sp - count + count = machine.sp := by omega
    have hlength : machine.sp - count + max routine.locals count - machine.sp =
        max routine.locals count - count := by omega
    rw [hbase, hlength]
    cases h : clearSlots machine.sp (max routine.locals count - count) machine with
    | ok _ cleared =>
      rw [bind_of_ok h]
      rfl
    | error error cleared => rw [bind_of_error h]

/-- A call that passes all checks. -/
theorem cleared_of_callClosure {after : Machine} {label : Label} {routine : Routine}
    {free : List Value} {count : Nat}
    (h : callClosure label routine free count machine = .ok () after) :
    ∃ cleared, clearSlots machine.sp (max routine.locals count - count) machine = .ok () cleared ∧
      after = { cleared with
        callers := cleared.callers.push cleared.frame
        frame := ⟨label, routine, free, 0, machine.sp - count⟩
        sp := machine.sp - count + max routine.locals count } := by
  rw [callClosure_eq] at h
  split at h
  · cases h
  split at h
  · cases h
  split at h
  · cases h
  split at h
  · cases h
  split at h
  · next cleared hclear =>
    cases h
    exact ⟨cleared, hclear, rfl⟩
  · cases h

/-! ### Errors -/

section Errors

variable {Body : Type} {error : RunError}

theorem isOfValues_of_operate {label : Label} {op : Opcode} {left right : Value Body}
    (hop : op ∈ [.add, .sub, .mul, .div]) (h : left.operate label op right = .error error) :
    error.isOfValues := by
  unfold Value.operate at h
  split at h
  · simp only [List.mem_cons, List.not_mem_nil, or_false] at hop
    obtain rfl | rfl | rfl | rfl := hop
    case inr.inr.inr =>
      unfold Value.operateIntegers at h
      dsimp only at h
      split at h <;> cases h
      rfl
    all_goals cases h
  · split at h <;> cases h
    rfl
  · cases h
    rfl

theorem isOfValues_of_compare {op : Opcode} {left right : Value Body}
    (hop : op ∈ [.equal, .notEqual, .greaterThan]) (h : left.compare op right = .error error) :
    error.isOfValues := by
  unfold Value.compare at h
  split at h
  · simp only [List.mem_cons, List.not_mem_nil, or_false] at hop
    obtain rfl | rfl | rfl := hop <;> cases h
  · split at h <;> cases h
    rfl

theorem isOfValues_of_negate {value : Value Body} (h : value.negate = .error error) :
    error.isOfValues := by
  cases value <;> cases h <;> rfl

theorem isOfValues_of_lookUp {collection position : Value Body}
    (h : collection.lookUp position = .error error) : error.isOfValues := by
  unfold Value.lookUp at h
  split at h
  · cases h
  · split at h <;> cases h
    rfl
  · cases h
    rfl

theorem isOfValues_of_addAll {entries : Entries Body} {items : List (Value Body)}
    (h : entries.addAll items = .error error) : error.isOfValues := by
  match items with
  | [] | [_] => cases h
  | _ :: _ :: _ =>
    unfold Entries.addAll at h
    split at h
    · exact isOfValues_of_addAll h
    · cases h
      rfl

end Errors

end Run

end StackScript
