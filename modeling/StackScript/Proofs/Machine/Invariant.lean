import StackScript.Proofs.Machine.Control
import StackScript.Proofs.Machine.Decode
import StackScript.Proofs.Machine.Safe

/-!
What every step of a machine keeps. All values are sound, each function at work stands at a whole
instruction of code that is in order, and all but the outermost are functions of the constant pool.
A step that does not end the run moves on in its function, enters another or goes back to the one
that called it (`Machine.Sound.step`).
-/

set_option autoImplicit false
set_option relaxedAutoImplicit false

namespace StackScript

open Instruction (size encodeAll)

/-- A function at work, inside of others or not. -/
structure Frame.Sound (constants : Array Value) (globals longest : Nat) (inFunction : Bool)
    (frame : Frame) : Prop where
  code : ∃ done rest : List Instruction, frame.routine.code.toList = encodeAll (done ++ rest) ∧
    frame.ip = size done ∧ Instruction.WellFormed constants
      ⟨globals, frame.routine.locals, frame.free.length, inFunction⟩ 0 (done ++ rest)
  free : ∀ value ∈ frame.free, value.Sound constants globals
  held : inFunction → frame.routine.Held constants globals frame.free.length
  length : frame.routine.code.size ≤ longest

/-- The code of every function among the constants is no longer. -/
def CodeWithin (constants : Array Value) (longest : Nat) : Prop :=
  ∀ (entry : Nat) (label : Label) (routine : Routine),
    constants[entry]? = some (.routine label routine) → routine.code.size ≤ longest

structure Machine.Sound (constants : Array Value) (globals longest : Nat) (machine : Machine) :
    Prop where
  holds : machine.Holds constants globals
  frame : machine.frame.Sound constants globals longest !machine.callers.isEmpty
  callers (i : Nat) (frame : Frame) : machine.callers[i]? = some frame →
    frame.Sound constants globals longest (decide (0 < i))
  depth : machine.callers.size < frameLimit

theorem not_isEmpty_eq (callers : Array Frame) : (!callers.isEmpty) = decide (0 < callers.size) := by
  simp [Array.isEmpty, Nat.pos_iff_ne_zero]

/-- What the control of a machine does in a step. -/
inductive Machine.Moved (before after : Machine) : Prop
  | onward (hcallers : after.callers = before.callers) (hip : before.frame.ip < after.frame.ip)
  | called (caller : Frame) (hcallers : after.callers = before.callers.push caller)
    (hip : before.frame.ip < caller.ip)
  | returned (hcallers : before.callers = after.callers.push after.frame)

variable {constants : Array Value} {globals longest : Nat}

namespace Frame.Sound

variable {inFunction : Bool} {frame : Frame}

theorem ip_le (h : frame.Sound constants globals longest inFunction) : frame.ip ≤ longest := by
  obtain ⟨done, rest, hcode, hip, _⟩ := h.code
  have hsize : size (done ++ rest) = frame.routine.code.size := by
    rw [← Instruction.length_encodeAll, ← hcode, Array.length_toList]
  rw [Instruction.size_append] at hsize
  have hlength := h.length
  omega

/-- A function at work is at the end of its code, or at an instruction that leads on in it. -/
theorem instruction (h : frame.Sound constants globals longest inFunction) :
    frame.ip = frame.routine.code.size ∨ ∃ instruction : Instruction,
      Loaded frame.routine.code frame.ip [instruction] ∧ instruction.Fits ∧
      instruction.Valid constants
        ⟨globals, frame.routine.locals, frame.free.length, inFunction⟩ ∧
      ({ frame with ip := frame.ip + instruction.length }).Sound constants globals longest
        inFunction ∧
      ∀ target, instruction.target? = some target → frame.ip < target ∧
        ({ frame with ip := target }).Sound constants globals longest inFunction := by
  obtain ⟨done, rest, hcode, hip, hwell⟩ := h.code
  cases rest with
  | nil =>
    left
    rw [hip, ← Array.length_toList, hcode]
    simp
  | cons instruction rest =>
    right
    have hmem : instruction ∈ done ++ instruction :: rest := by simp
    refine ⟨instruction, ⟨encodeAll done, encodeAll rest, by simp [hcode], by simp [hip]⟩,
      hwell.fits _ hmem, hwell.valid _ hmem, ?_, ?_⟩
    · refine ⟨⟨done ++ [instruction], rest, by simpa using hcode, ?_, by simpa using hwell⟩,
        h.free, h.held, h.length⟩
      simp [hip]
    · intro target htarget
      obtain ⟨skipped, others, hrest, hposition⟩ := hwell.forward.right.1 target htarget
      refine ⟨?_, ⟨done ++ instruction :: skipped, others, ?_, ?_, ?_⟩, h.free, h.held, h.length⟩
      · have hlength := instruction.length_pos
        omega
      · rw [hcode, hrest]
        simp
      · simp only [Instruction.size_append, Instruction.size_cons]
        omega
      · rw [hrest] at hwell
        simpa using hwell

end Frame.Sound

/-! ### Steps -/

namespace Run

open Machine

/-- What a step leads to from a machine that is in order. -/
def Outcome (constants : Array Value) (globals longest : Nat) (before : Machine) :
    EStateM.Result RunError Machine Progress → Prop
  | .ok .running after => after.Sound constants globals longest ∧ before.Moved after
  | .ok .finished after => after.Holds constants globals
  | .error error after => after.Holds constants globals ∧ error.IsOrdinary

variable {before machine : Machine} {α : Type}

/-- A safe action first. -/
theorem Safe.outcome {action : Run α} {next : α → Run Progress}
    {property : α → Machine → Prop} (h : Safe constants globals action machine property)
    (hholds : machine.Holds constants globals)
    (hnext : ∀ yielded after, after.Holds constants globals → after.frame = machine.frame →
      after.callers = machine.callers → property yielded after →
      Outcome constants globals longest before (next yielded after)) :
    Outcome constants globals longest before ((action >>= next) machine) := by
  have hfirst := h hholds
  cases haction : action machine with
  | error error after =>
    rw [haction] at hfirst
    rw [bind_of_error haction]
    exact hfirst
  | ok yielded after =>
    rw [haction] at hfirst
    rw [bind_of_ok haction]
    exact hnext yielded after hfirst.1 hfirst.2.1 hfirst.2.2.1 hfirst.2.2.2

theorem Holds.advance (h : before.Holds constants globals) (count : Nat) :
    (before.advance count).Holds constants globals :=
  ⟨h.pool, h.onStack, h.inGlobal, h.popped⟩

/-- A machine that is as before but for its slots and its place in the code. -/
theorem sound_of_same (h : before.Sound constants globals longest)
    (hholds : machine.Holds constants globals) (hcallers : machine.callers = before.callers)
    (hframe : machine.frame.Sound constants globals longest !before.callers.isEmpty) :
    machine.Sound constants globals longest :=
  ⟨hholds, hcallers ▸ hframe, hcallers ▸ h.callers, hcallers ▸ h.depth⟩

/-- A step of a safe action. -/
theorem outcome_of_safe {instruction : Instruction} (h : before.Sound constants globals longest)
    (hframe : (before.advance instruction.length).frame.Sound constants globals longest
      !before.callers.isEmpty)
    {action : Run Unit} {property : Unit → Machine → Prop}
    (hsafe : Safe constants globals action (before.advance instruction.length) property) :
    Outcome constants globals longest before
      (goOn action (before.advance instruction.length)) := by
  refine hsafe.outcome (Holds.advance h.holds _) fun _ after hholds hsame hcallers _ ↦ ?_
  refine ⟨sound_of_same h hholds hcallers (hsame ▸ hframe), .onward hcallers ?_⟩
  rw [hsame]
  exact Nat.lt_add_of_pos_right instruction.length_pos

theorem outcome_returnFromCall {value : Value} (h : before.Sound constants globals longest)
    (hholds : machine.Holds constants globals) (hcallers : machine.callers = before.callers)
    (hvalue : value.Sound constants globals) :
    Outcome constants globals longest before (goOn (returnFromCall value) machine) := by
  cases hback : machine.callers.back? with
  | none =>
    have herror : returnFromCall value machine = .error .stackUnderflow machine := by
      rw [returnFromCall_eq, hback]
    rw [goOn, bind_of_error herror]
    exact ⟨hholds, rfl, by simp⟩
  | some caller =>
    obtain ⟨rest, hrest⟩ := Array.back?_eq_some_iff.mp hback
    have hpop : machine.callers.pop = rest := by rw [hrest, Array.pop_push]
    rw [hcallers] at hrest
    cases hbase : machine.frame.base with
    | zero =>
      have herror : returnFromCall value machine = .error .stackUnderflow
          { machine with callers := machine.callers.pop, frame := caller } := by
        rw [returnFromCall_eq, hback, hbase]
      rw [goOn, bind_of_error herror]
      exact ⟨⟨hholds.pool, hholds.onStack, hholds.inGlobal, hholds.popped⟩, rfl, by simp⟩
    | succ callee =>
      let left : Machine :=
        { machine with callers := machine.callers.pop, frame := caller, sp := callee }
      have hgoes : goOn (returnFromCall value) machine = goOn (push value) left := by
        have hreturn : returnFromCall value machine = push value left := by
          rw [returnFromCall_eq, hback, hbase]
        simp only [goOn, bind, EStateM.bind, hreturn]
      have hcaller := h.callers rest.size caller (by rw [hrest]; exact Array.getElem?_push_size)
      rw [hgoes]
      refine (safe_push hvalue).outcome
        ⟨hholds.pool, hholds.onStack, hholds.inGlobal, hholds.popped⟩
        fun _ after hafter hframe hsame _ ↦ ?_
      have hleft : after.callers = rest := hsame.trans hpop
      refine ⟨⟨hafter, ?_, ?_, ?_⟩, .returned ?_⟩
      · rw [hframe, hleft]
        rw [not_isEmpty_eq]
        exact hcaller
      · intro i frame hi
        rw [hleft] at hi
        refine h.callers i frame ?_
        have hlt : i < rest.size := (Array.getElem?_eq_some_iff.mp hi).1
        rw [hrest, Array.getElem?_push_lt hlt, ← Array.getElem?_eq_getElem hlt, hi]
      · rw [hleft]
        have hdepth := h.depth
        rw [hrest, Array.size_push] at hdepth
        omega
      · rw [hframe, hleft, hrest]

theorem outcome_returnWith {value : Value} (h : before.Sound constants globals longest)
    (hholds : machine.Holds constants globals) (hcallers : machine.callers = before.callers)
    (hvalue : value.Sound constants globals) :
    Outcome constants globals longest before (returnWith value machine) := by
  have hcases : returnWith value machine = if machine.callers.isEmpty then
      (do finish value; return .finished : Run Progress) machine
    else goOn (returnFromCall value) machine := by
    change (if machine.callers.isEmpty then (do finish value; return .finished)
      else goOn (returnFromCall value) : Run Progress) machine = _
    split <;> rfl
  rw [hcases]
  split
  · exact (safe_finish hvalue).outcome hholds fun _ after hafter _ _ _ ↦ hafter
  · exact outcome_returnFromCall h hholds hcallers hvalue

/-- A function that was called stands at the begin of its code. -/
theorem sound_entered {label : Label} {routine : Routine} {free : List Value} {base : Nat}
    (hlongest : CodeWithin constants longest)
    (h : (Value.closure label routine free).Sound constants globals) :
    Frame.Sound constants globals longest true
      { label := label, routine := routine, free := free, ip := 0, base := base } := by
  cases h with
  | closure hroutine hfree =>
    obtain ⟨entry, other, hentry⟩ := hroutine.entry
    obtain ⟨code, hcode, hwell⟩ := hroutine.wellFormed
    exact ⟨⟨[], code, hcode, rfl, hwell⟩, hfree, fun _ ↦ hroutine, hlongest entry other routine hentry⟩

theorem outcome_callClosure {label : Label} {routine : Routine} {free : List Value} {count : Nat}
    (hlongest : CodeWithin constants longest)
    (h : before.Sound constants globals longest) (hholds : machine.Holds constants globals)
    (hcallers : machine.callers = before.callers) (hip : before.frame.ip < machine.frame.ip)
    (hframe : machine.frame.Sound constants globals longest !before.callers.isEmpty)
    (hclosure : (Value.closure label routine free).Sound constants globals) :
    Outcome constants globals longest before
      (goOn (callClosure label routine free count) machine) := by
  by_cases harity : count = routine.parameters
  swap
  · have herror : callClosure label routine free count machine =
        .error (.wrongArity routine.parameters count) machine := by
      rw [callClosure_eq, if_pos harity]
    rw [goOn, bind_of_error herror]
    exact ⟨hholds, rfl, by simp⟩
  by_cases hdepth : frameLimit ≤ machine.callers.size + 1
  · have herror : callClosure label routine free count machine =
        .error .frameOverflow machine := by
      rw [callClosure_eq, if_neg (not_not_intro harity), if_pos hdepth]
    rw [goOn, bind_of_error herror]
    exact ⟨hholds, rfl, by simp⟩
  by_cases hcount : machine.sp < count
  · have herror : callClosure label routine free count machine = .error .outOfRange machine := by
      rw [callClosure_eq, if_neg (not_not_intro harity), if_neg hdepth, if_pos hcount]
    rw [goOn, bind_of_error herror]
    exact ⟨hholds, rfl, by simp⟩
  by_cases hfull : stackSize < machine.sp - count + max routine.locals count
  · have herror : callClosure label routine free count machine =
        .error .stackOverflow machine := by
      rw [callClosure_eq, if_neg (not_not_intro harity), if_neg hdepth, if_neg hcount,
        if_pos hfull]
    rw [goOn, bind_of_error herror]
    exact ⟨hholds, rfl, by simp⟩
  have hclear := safe_clearSlots machine.sp (max routine.locals count - count) hholds
  have hcall : callClosure label routine free count machine = _ :=
    callClosure_eq machine label routine free count
  rw [if_neg (not_not_intro harity), if_neg hdepth, if_neg hcount, if_neg hfull] at hcall
  cases hcleared : clearSlots machine.sp (max routine.locals count - count) machine with
  | error error cleared =>
    rw [hcleared] at hclear hcall
    rw [goOn, bind_of_error hcall]
    exact hclear
  | ok _ cleared =>
    rw [hcleared] at hclear hcall
    obtain ⟨hafter, hsame, hkept, _⟩ := hclear
    rw [goOn, bind_of_ok hcall]
    refine ⟨⟨⟨hafter.pool, hafter.onStack, hafter.inGlobal, hafter.popped⟩, ?_, ?_, ?_⟩,
      .called machine.frame (by simp only [hkept, hcallers, hsame]) hip⟩
    · simp only [Array.isEmpty_push, Bool.not_false]
      exact sound_entered hlongest hclosure
    · intro i frame hi
      simp only [hkept, hcallers, hsame, Array.getElem?_push] at hi
      split at hi
      · next hlast =>
        cases hi
        have hempty : (!before.callers.isEmpty) = decide (0 < i) := by
          simp [Array.isEmpty, Nat.pos_iff_ne_zero, hlast]
        exact hempty ▸ hframe
      · exact h.callers i frame hi
    · simp only [hkept, Array.size_push]
      omega

theorem outcome_call {count : Nat}
    (hlongest : CodeWithin constants longest)
    (h : before.Sound constants globals longest)
    (hframe : (before.advance 2).frame.Sound constants globals longest
      !before.callers.isEmpty) :
    Outcome constants globals longest before (goOn (call count) (before.advance 2)) := by
  have hip : before.frame.ip < (before.advance 2).frame.ip :=
    Nat.lt_add_of_pos_right (by omega)
  have hholds := Holds.advance h.holds 2
  rw [goOn, call, bind_assoc, getSp_bind]
  dsimp only
  split
  · exact ⟨hholds, rfl, by simp⟩
  rw [bind_assoc]
  refine (safe_readSlot _).outcome hholds fun content after hafter hsame hcallers hcontent ↦ ?_
  cases content with
  | none => exact ⟨hafter, rfl, by simp⟩
  | some callee =>
    cases callee with
    | closure label routine free =>
      exact outcome_callClosure hlongest h hafter hcallers (hsame ▸ hip) (hsame ▸ hframe)
        (hcontent _ rfl)
    | builtin builtin =>
      refine (safe_callBuiltin builtin count).outcome hafter fun _ last hlast hkept hsize _ ↦ ?_
      refine ⟨sound_of_same h hlast (hsize.trans hcallers) ?_, .onward (hsize.trans hcallers) ?_⟩
      · rw [hkept, hsame]
        exact hframe
      · rw [hkept, hsame]
        exact hip
    | _ => exact ⟨hafter, rfl, by simp⟩

theorem outcome_jump {target count : Nat} (h : before.Sound constants globals longest)
    (htarget : before.frame.ip < target ∧
      ({ before.frame with ip := target }).Sound constants globals longest
        !before.callers.isEmpty) :
    Outcome constants globals longest before (goOn (setIp target) (before.advance count)) :=
  ⟨sound_of_same h ⟨h.holds.pool, h.holds.onStack, h.holds.inGlobal, h.holds.popped⟩ rfl htarget.2,
    .onward rfl htarget.1⟩

theorem outcome_jumpNotTruthy {target : Nat} (h : before.Sound constants globals longest)
    (hframe : (before.advance 3).frame.Sound constants globals longest
      !before.callers.isEmpty)
    (htarget : before.frame.ip < target ∧
      ({ before.frame with ip := target }).Sound constants globals longest
        !before.callers.isEmpty) :
    Outcome constants globals longest before
      (goOn (do if !(← pop).isTruthy then setIp target) (before.advance 3)) := by
  rw [goOn, bind_assoc]
  refine safe_pop.outcome (Holds.advance h.holds 3) fun value after hafter hsame hcallers _ ↦ ?_
  cases value.isTruthy with
  | true =>
    refine ⟨sound_of_same h hafter hcallers (hsame ▸ hframe), .onward hcallers ?_⟩
    rw [hsame]
    exact Nat.lt_add_of_pos_right (by omega)
  | false =>
    have hframe : { after.frame with ip := target } = { before.frame with ip := target } := by
      rw [hsame]
      rfl
    refine ⟨sound_of_same h ⟨hafter.pool, hafter.onStack, hafter.inGlobal, hafter.popped⟩ hcallers
      ?_, .onward hcallers htarget.1⟩
    exact hframe ▸ htarget.2

end Run

open Run

/-- A step from a machine that is in order. -/
theorem Machine.Sound.step {machine : Machine} (hpool : ValidPool constants globals)
    (hlongest : CodeWithin constants longest)
    (h : machine.Sound constants globals longest) :
    Outcome constants globals longest machine (Run.step machine) := by
  rcases h.frame.instruction with hend | ⟨instruction, hloaded, hfits, hvalid, hnext, htarget⟩
  · rw [step_at_end hend]
    split
    · exact h.holds
    · exact outcome_returnFromCall h h.holds rfl .null
  rw [step_eq_perform hloaded hfits]
  have hholds := Holds.advance h.holds instruction.length
  obtain ⟨opcode, operands⟩ := instruction
  cases opcode
  case constant =>
    obtain ⟨entry, rfl, _⟩ := hfits.eq_single rfl
    exact outcome_of_safe h hnext (safe_loadConstant hvalid)
  case closure =>
    obtain ⟨entry, count, rfl, _⟩ := hfits.eq_pair rfl
    exact outcome_of_safe h hnext (safe_makeClosure hpool hvalid)
  case jump =>
    obtain ⟨target, rfl, _⟩ := hfits.eq_single rfl
    exact outcome_jump h (htarget target rfl)
  case jumpNotTruthy =>
    obtain ⟨target, rfl, _⟩ := hfits.eq_single rfl
    exact outcome_jumpNotTruthy h hnext (htarget target rfl)
  case setGlobal =>
    obtain ⟨index, rfl, _⟩ := hfits.eq_single rfl
    exact outcome_of_safe h hnext (safe_pop.bind fun _ _ _ hvalue ↦ safe_writeGlobal hvalue)
  case getGlobal =>
    obtain ⟨index, rfl, _⟩ := hfits.eq_single rfl
    exact outcome_of_safe h hnext (safe_loadGlobal index)
  case setLocal =>
    obtain ⟨index, rfl, _⟩ := hfits.eq_single rfl
    exact outcome_of_safe h hnext (safe_storeLocal index)
  case getLocal =>
    obtain ⟨index, rfl, _⟩ := hfits.eq_single rfl
    exact outcome_of_safe h hnext (safe_loadLocal index)
  case getFree =>
    obtain ⟨index, rfl, _⟩ := hfits.eq_single rfl
    exact outcome_of_safe h hnext (safe_loadFree hvalid h.frame.free)
  case getBuiltin =>
    obtain ⟨index, rfl, _⟩ := hfits.eq_single rfl
    exact outcome_of_safe h hnext (safe_loadBuiltin hvalid)
  case array =>
    obtain ⟨count, rfl, _⟩ := hfits.eq_single rfl
    exact outcome_of_safe h hnext (safe_makeArray count)
  case hash =>
    obtain ⟨count, rfl, _⟩ := hfits.eq_single rfl
    exact outcome_of_safe h hnext (safe_makeHash count)
  case call =>
    obtain ⟨count, rfl, _⟩ := hfits.eq_single rfl
    exact outcome_call hlongest h hnext
  all_goals
    obtain rfl := hfits.eq_nil rfl
  case add | sub | mul | div => exact outcome_of_safe h hnext (safe_arithmetic (by simp))
  case equal | notEqual | greaterThan => exact outcome_of_safe h hnext (safe_comparison (by simp))
  case bang => exact outcome_of_safe h hnext (safe_pop.bind fun _ _ _ _ ↦ safe_push (.boolean _))
  case minus => exact outcome_of_safe h hnext safe_negate
  case true | false => exact outcome_of_safe h hnext (safe_push (.boolean _))
  case null => exact outcome_of_safe h hnext (safe_push .null)
  case pop =>
    exact outcome_of_safe h hnext (safe_pop.bind fun _ _ _ hvalue ↦ safe_setLastPopped hvalue)
  case index => exact outcome_of_safe h hnext safe_index
  case currentClosure =>
    refine outcome_of_safe h hnext (safe_getFrame.bind fun frame _ _ hframe ↦ safe_push ?_)
    subst hframe
    exact .closure (h.frame.held hvalid) h.frame.free
  case returnValue =>
    refine safe_pop.outcome hholds fun value after hafter _ hcallers hvalue ↦ ?_
    exact outcome_returnWith h hafter hcallers hvalue
  case ret => exact outcome_returnWith h hholds rfl .null

end StackScript
