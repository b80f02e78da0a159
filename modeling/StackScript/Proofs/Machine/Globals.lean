import StackScript.Proofs.Machine.Decode
import StackScript.Proofs.Machine.Invariant
import StackScript.Proofs.Machine.Plain
import StackScript.Proofs.Machine.Trace
import StackScript.Proofs.Program.Slots

/-!
Globals are set once. Only one operation writes to them, and functions are free of it, so that what
a run sets is set by the code that runs outside of functions. That code moves forward only, and it
sets no global twice: a run whose code sets only globals that have no value yet leaves those with a
value alone (`Machine.Filling.reaches`).
-/

set_option autoImplicit false
set_option relaxedAutoImplicit false

namespace StackScript

open Instruction (size encodeAll sets)

/-- The function outside of all others. -/
def Machine.outermost (machine : Machine) : Frame :=
  machine.callers[0]?.getD machine.frame

theorem first_push (callers : Array Frame) (caller frame : Frame) :
    (callers.push caller)[0]?.getD frame = callers[0]?.getD caller := by
  rw [Array.getElem?_push]
  cases hsize : callers.size with
  | zero => simp [Array.getElem?_eq_none (Nat.le_of_eq hsize)]
  | succ rest =>
    have hfirst : 0 < callers.size := by omega
    simp [Array.getElem?_eq_getElem hfirst]

/-- The globals are the same, and the code outside of functions. -/
structure Machine.Steady (before after : Machine) : Prop where
  globals : after.globals = before.globals
  routine : after.outermost.routine = before.outermost.routine

theorem Machine.Steady.trans {first second third : Machine} (h : first.Steady second)
    (hnext : second.Steady third) : first.Steady third :=
  ⟨hnext.globals.trans h.globals, hnext.routine.trans h.routine⟩

/-! ### Actions that set no global -/

namespace Run

open Machine

variable {α β : Type}

def Steady (action : Run α) : Prop :=
  ∀ machine, Ends action machine (fun _ after ↦ machine.Steady after)
    fun _ after ↦ machine.Steady after

theorem Steady.bind {action : Run α} {next : α → Run β} (h : Steady action)
    (hnext : ∀ yielded, Steady (next yielded)) : Steady (action >>= next) := by
  refine fun machine ↦ Ends.bind (h machine) fun yielded middle hfirst ↦ ?_
  exact (hnext yielded middle).mono (fun _ _ hsecond ↦ hfirst.trans hsecond)
    fun _ _ hsecond ↦ hfirst.trans hsecond

theorem Steady.pure (yielded : α) : Steady (Pure.pure yielded) :=
  fun _ ↦ ⟨rfl, rfl⟩

theorem Steady.throw (error : RunError) : Steady (MonadExcept.throw error : Run α) :=
  fun _ ↦ ⟨rfl, rfl⟩

theorem Steady.check {c : Prop} [Decidable c] {error : RunError} {next : PUnit → Run α}
    (hnext : Steady (next ⟨⟩)) :
    Steady (if c then (do next (← MonadExcept.throw error)) else next ⟨⟩) :=
  fun machine ↦ .check (fun _ ↦ ⟨rfl, rfl⟩) fun _ ↦ hnext machine

theorem Steady.goOn {action : Run Unit} (h : Steady action) : Steady (goOn action) :=
  h.bind fun _ ↦ .pure _

theorem Plain.steady {action : Run α} (h : Plain action) : Steady action := by
  have hsame : ∀ {before after : Machine}, before.Restacked after → before.Steady after := by
    intro before after hrestacked
    refine ⟨hrestacked.globals, ?_⟩
    rw [Machine.outermost, Machine.outermost, hrestacked.callers, hrestacked.frame]
  exact fun machine ↦ (h machine).mono (fun _ _ ↦ hsame) fun _ _ hfailed ↦ hsame hfailed.1

/-- The code of the function at work is the same one at another place of it. -/
theorem steady_setIp (ip : Nat) : Steady (setIp ip) := by
  refine fun machine ↦ ⟨rfl, ?_⟩
  simp only [Machine.outermost]
  cases machine.callers[0]? <;> rfl

theorem steady_operandByte : Steady operandByte := by
  intro machine
  have hnext := steady_setIp (machine.frame.ip + 1) machine
  unfold Ends operandByte
  dsimp only
  cases machine.frame.routine.code[machine.frame.ip]? with
  | none => exact ⟨rfl, rfl⟩
  | some byte => exact hnext

theorem steady_operandWord : Steady operandWord := by
  intro machine
  have hnext := steady_setIp (machine.frame.ip + 2) machine
  unfold Ends operandWord
  dsimp only
  cases machine.frame.routine.code[machine.frame.ip]? with
  | none => exact ⟨rfl, rfl⟩
  | some high =>
    cases machine.frame.routine.code[machine.frame.ip + 1]? with
    | none => exact ⟨rfl, rfl⟩
    | some low => exact hnext

theorem steady_setLastPopped (value : Value) : Steady (setLastPopped value) :=
  fun _ ↦ ⟨rfl, rfl⟩

/-- The function that waits for a call is the outermost one if no other waits. -/
theorem steady_enter (machine : Machine) (frame : Frame) (sp : Nat) :
    machine.Steady { machine with
      callers := machine.callers.push machine.frame, frame := frame, sp := sp } := by
  refine ⟨rfl, ?_⟩
  simp only [Machine.outermost, first_push]

theorem steady_callClosure (label : Label) (routine : Routine) (free : List Value) (count : Nat) :
    Steady (callClosure label routine free count) := by
  have hget : Steady (get : Run Machine) := fun _ ↦ ⟨rfl, rfl⟩
  unfold callClosure
  refine .check <| hget.bind fun machine ↦ .check <| .check ?_
  dsimp only
  refine .check ?_
  exact (plain_clearSlots _ _).steady.bind fun _ machine ↦ steady_enter machine _ _

theorem steady_call (count : Nat) : Steady (call count) := by
  refine plain_getSp.steady.bind fun sp ↦ .check <|
    (plain_readSlot _).steady.bind fun content ↦ ?_
  split
  · exact .throw _
  · exact steady_callClosure _ _ _ _
  · exact (plain_callBuiltin _ _).steady
  · exact .throw _

theorem steady_returnFromCall (value : Value) : Steady (returnFromCall value) := by
  intro machine
  unfold Ends
  rw [returnFromCall_eq]
  cases hback : machine.callers.back? with
  | none => exact ⟨rfl, rfl⟩
  | some caller =>
    obtain ⟨rest, hrest⟩ := Array.back?_eq_some_iff.mp hback
    -- the caller is the outermost function if no other waits below it
    have hleft : ∀ sp, machine.Steady
        { machine with callers := machine.callers.pop, frame := caller, sp := sp } := by
      refine fun sp ↦ ⟨rfl, ?_⟩
      simp only [Machine.outermost, hrest, Array.pop_push, first_push]
    cases machine.frame.base with
    | zero => exact hleft machine.sp
    | succ callee =>
      exact ((plain_push value).steady _).mono (fun _ _ hpushed ↦ (hleft callee).trans hpushed)
        fun _ _ hpushed ↦ (hleft callee).trans hpushed

theorem steady_returnWith (value : Value) : Steady (returnWith value) := by
  refine plain_atTopLevel.steady.bind ?_
  rintro (_ | _)
  · exact (steady_returnFromCall value).goOn
  · refine Steady.bind ?_ fun _ ↦ .pure _
    exact (plain_setSp 0).steady.bind fun _ ↦ steady_setLastPopped value

/-- All operations but one leave the globals alone. -/
theorem steady_execute {opcode : Opcode} (h : opcode ≠ .setGlobal) : Steady (execute opcode) := by
  cases opcode
  case setGlobal => exact absurd rfl h
  case constant => exact (steady_operandWord.bind fun _ ↦ (plain_loadConstant _).steady).goOn
  case add | sub | mul | div => exact (plain_arithmetic (by decide)).steady.goOn
  case equal | notEqual | greaterThan => exact (plain_comparison (by decide)).steady.goOn
  case bang => exact plain_not.steady.goOn
  case minus => exact plain_negate.steady.goOn
  case true | false | null => exact (plain_push _).steady.goOn
  case pop => exact (plain_pop.steady.bind steady_setLastPopped).goOn
  case jump => exact (steady_operandWord.bind steady_setIp).goOn
  case jumpNotTruthy =>
    refine (steady_operandWord.bind fun target ↦ plain_pop.steady.bind fun value ↦ ?_).goOn
    split
    · exact steady_setIp target
    · exact .pure _
  case getGlobal => exact (steady_operandWord.bind fun _ ↦ (plain_loadGlobal _).steady).goOn
  case setLocal => exact (steady_operandByte.bind fun _ ↦ (plain_storeLocal _).steady).goOn
  case getLocal => exact (steady_operandByte.bind fun _ ↦ (plain_loadLocal _).steady).goOn
  case getFree => exact (steady_operandByte.bind fun _ ↦ (plain_loadFree _).steady).goOn
  case getBuiltin => exact (steady_operandByte.bind fun _ ↦ (plain_loadBuiltin _).steady).goOn
  case currentClosure => exact plain_currentClosure.steady.goOn
  case array => exact (steady_operandWord.bind fun _ ↦ (plain_makeArray _).steady).goOn
  case hash => exact (steady_operandWord.bind fun _ ↦ (plain_makeHash _).steady).goOn
  case index => exact plain_index.steady.goOn
  case call => exact (steady_operandByte.bind steady_call).goOn
  case closure =>
    exact (steady_operandWord.bind fun _ ↦ steady_operandByte.bind fun _ ↦
      (plain_makeClosure _ _).steady).goOn
  case returnValue => exact plain_pop.steady.bind steady_returnWith
  case ret => exact steady_returnWith .null

theorem steady_advance (machine : Machine) (count : Nat) : machine.Steady (machine.advance count) :=
  steady_setIp (machine.frame.ip + count) machine

theorem steady_step_of_loaded {machine : Machine} {instruction : Instruction}
    (h : Loaded machine.frame.routine.code machine.frame.ip [instruction])
    (hopcode : instruction.opcode ≠ .setGlobal) :
    Ends step machine (fun _ after ↦ machine.Steady after) fun _ after ↦ machine.Steady after := by
  have hnext := steady_advance machine 1
  refine .of_eq_from (bind_of_ok (fetch_of_loaded h)) ?_
  exact (steady_execute hopcode (machine.advance 1)).mono (fun _ _ hdone ↦ hnext.trans hdone)
    fun _ _ hfailed ↦ hnext.trans hfailed

theorem steady_step_at_end {machine : Machine}
    (h : machine.frame.ip = machine.frame.routine.code.size) :
    Ends step machine (fun _ after ↦ machine.Steady after) fun _ after ↦ machine.Steady after := by
  unfold Ends
  rw [step_at_end h]
  cases machine.callers.isEmpty with
  | true => exact ⟨rfl, rfl⟩
  | false => exact (steady_returnFromCall .null).goOn machine

theorem ends_takeSlot (machine : Machine) (slot : Nat) :
    Ends (takeSlot slot) machine (fun value after ↦ machine.stack[slot]? = some (some value) ∧
      ∃ stack, after = { machine with stack := stack }) fun _ after ↦ after = machine := by
  unfold takeSlot
  cases hslot : machine.stack[slot]? with
  | none =>
    have hread : readSlot slot machine = .error .outOfRange machine := by
      rw [readSlot, hslot]
    exact .of_error (bind_of_error hread) rfl
  | some content =>
    have hread : readSlot slot machine = .ok content machine := by
      rw [readSlot, hslot]
    refine .of_eq_from (bind_of_ok hread) ?_
    cases content with
    | none => exact .throw rfl
    | some value =>
      have hinside := (Array.getElem?_eq_some_iff.mp hslot).1
      have hwrite : writeSlot slot none machine =
          .ok () { machine with stack := machine.stack.setIfInBounds slot none } := if_pos hinside
      exact .of_ok (bind_of_ok hwrite) ⟨rfl, _, rfl⟩

theorem ends_pop (machine : Machine) :
    Ends pop machine (fun value after ↦ machine.stackTop = some value ∧
      ∃ stack sp, after = { machine with stack := stack, sp := sp }) fun _ after ↦ after = machine := by
  unfold pop
  refine .of_eq_from (getSp_bind _) ?_
  cases hsp : machine.sp with
  | zero => exact .throw rfl
  | succ top =>
    refine (ends_takeSlot machine top).bind ?_
    rintro value _ ⟨hslot, stack, rfl⟩
    refine .of_ok rfl ⟨?_, stack, top, rfl⟩
    simp [Machine.stackTop, hsp, hslot]

/-- The topmost operand goes to the global. -/
theorem step_setGlobal {machine : Machine} {slot : Nat}
    (h : Loaded machine.frame.routine.code machine.frame.ip [⟨.setGlobal, [slot]⟩])
    (hslot : slot < globalsSize) :
    Ends step machine
      (fun progress after ↦ progress = .running ∧ after.callers = machine.callers ∧
        after.frame = (machine.advance 3).frame ∧ ∃ value, machine.stackTop = some value ∧
          after.globals = machine.globals.setIfInBounds slot (some value))
      fun _ after ↦ machine.Steady after := by
  have hnext := steady_advance machine 3
  have hstep : step machine = goOn (do writeGlobal slot (← pop)) (machine.advance 3) :=
    step_eq_perform h (.cons hslot .nil)
  refine .of_eq_from hstep ?_
  rw [goOn, bind_assoc]
  refine ((ends_pop (machine.advance 3)).mono (fun _ _ hdone ↦ hdone) ?_).bind ?_
  · rintro _ _ rfl
    exact hnext
  · rintro value _ ⟨htop, stack, sp, rfl⟩
    by_cases hinside : slot < machine.globals.size
    · have hwrite : writeGlobal slot value
          { machine.advance 3 with stack := stack, sp := sp } = .ok () _ := if_pos hinside
      exact .of_ok (bind_of_ok hwrite) ⟨rfl, rfl, rfl, value, htop, rfl⟩
    · have hwrite : writeGlobal slot value
          { machine.advance 3 with stack := stack, sp := sp } = .error .outOfRange _ :=
        if_neg hinside
      exact .of_error (bind_of_error hwrite) ⟨hnext.globals, hnext.routine⟩

end Run

/-! ### Runs that set each global once -/

/-- What stands in code where whole instructions stand is one of them. -/
theorem Loaded.eq_cons {code : Array UInt8} {done rest : List Instruction}
    {instruction : Instruction} (h : Loaded code (size done) [instruction])
    (hfits : instruction.Fits) (hcode : code.toList = encodeAll (done ++ rest))
    (hrest : ∀ other ∈ rest, other.Fits) : ∃ others, rest = instruction :: others := by
  obtain ⟨before, after, hsplit, hlength⟩ := h
  rw [hcode, Instruction.encodeAll_append, List.append_assoc] at hsplit
  have hbytes := (List.append_inj hsplit (by rw [Instruction.length_encodeAll, hlength])).2
  cases rest with
  | nil => simp [Instruction.bytes_eq_cons] at hbytes
  | cons other others =>
    have hsame : other.bytes ++ encodeAll others = instruction.bytes ++ after := by
      simpa using hbytes
    obtain ⟨rfl, _⟩ := Instruction.eq_of_bytes_append_eq (hrest _ List.mem_cons_self) hfits hsame
    exact ⟨others, rfl⟩

/-- The instruction at which a function stands is one of its code. -/
theorem Frame.Sound.at_loaded {constants : Array Value} {globals longest : Nat} {inFunction : Bool}
    {frame : Frame} {instruction : Instruction}
    (h : frame.Sound constants globals longest inFunction)
    (hloaded : Loaded frame.routine.code frame.ip [instruction]) (hfits : instruction.Fits) :
    ∃ done rest, frame.routine.code.toList = encodeAll (done ++ instruction :: rest) ∧
      frame.ip = size done ∧ Instruction.WellFormed constants
        ⟨globals, frame.routine.locals, frame.free.length, inFunction⟩ 0
        (done ++ instruction :: rest) := by
  obtain ⟨done, others, hcode, hip, hwell⟩ := h.code
  rw [hip] at hloaded
  obtain ⟨rest, rfl⟩ := hloaded.eq_cons hfits hcode fun other hmem ↦
    hwell.fits other (List.mem_append_right done hmem)
  exact ⟨done, rest, hcode, hip, hwell⟩

/-- Of two places in code the later one has less before it. -/
theorem Instruction.suffix_of_size_le {done rest later last : List Instruction}
    (h : done ++ rest = later ++ last) (hsize : size done ≤ size later) : last <:+ rest := by
  rcases List.append_eq_append_iff.mp h with ⟨skipped, _, hrest⟩ | ⟨skipped, hdone, hlast⟩
  · exact ⟨skipped, hrest.symm⟩
  · cases skipped with
    | nil =>
      rw [List.nil_append] at hlast
      exact hlast ▸ List.suffix_rfl
    | cons instruction skipped =>
      rw [hdone, Instruction.size_append, Instruction.size_cons] at hsize
      have hlength := instruction.length_pos
      omega

theorem Frame.Sound.sets_eq_nil {constants : Array Value} {globals longest : Nat} {frame : Frame}
    (h : frame.Sound constants globals longest true) (hquiet : QuietPool constants)
    {code : List Instruction} (hcode : frame.routine.code.toList = encodeAll code)
    (hfits : ∀ instruction ∈ code, instruction.Fits) : sets code = [] := by
  obtain ⟨entry, label, hentry⟩ := (h.held rfl).entry
  obtain ⟨other, hother, hotherFits, hsets⟩ : frame.routine.Quiet := hquiet entry _ hentry
  rw [Instruction.eq_of_encodeAll_eq hfits hotherFits (hcode.symm.trans hother)]
  exact hsets

namespace Machine

/-- The globals that have a value keep it, and others get one only if they are among these. -/
structure Filled (slots : List Nat) (before after : Machine) : Prop where
  size : after.globals.size = before.globals.size
  kept (slot : Nat) (value : Value) : before.globals[slot]?.join = some value →
    after.globals[slot]?.join = some value
  others (slot : Nat) : slot ∉ slots → after.globals[slot]? = before.globals[slot]?

/-- The code outside of functions, which sets no global twice; and none of those that it sets from
here on has a value. -/
structure Filling (code : List Instruction) (machine : Machine) : Prop where
  outermost : machine.outermost.routine.code.toList = encodeAll code
  fits : ∀ instruction ∈ code, instruction.Fits
  nodup : (sets code).Nodup
  ahead (done rest : List Instruction) : code = done ++ rest →
    machine.outermost.ip ≤ size done → ∀ slot ∈ sets rest, machine.globals[slot]?.join = none

variable {constants : Array Value} {globals longest : Nat} {slots : List Nat}
  {code : List Instruction} {machine middle after : Machine}

theorem Filled.of_eq (h : after.globals = machine.globals) : machine.Filled slots after :=
  ⟨by rw [h], fun _ _ hvalue ↦ h ▸ hvalue, fun _ _ ↦ by rw [h]⟩

theorem Filled.trans (h : machine.Filled slots middle) (hnext : middle.Filled slots after) :
    machine.Filled slots after :=
  ⟨hnext.size.trans h.size, fun slot value hvalue ↦ hnext.kept slot value (h.kept slot value hvalue),
    fun slot hslot ↦ (hnext.others slot hslot).trans (h.others slot hslot)⟩

/-- A global without a value gets one. -/
theorem Filled.of_set {slot : Nat} {value : Value} (hslot : slot ∈ slots)
    (hunset : machine.globals[slot]?.join = none)
    (h : after.globals = machine.globals.setIfInBounds slot (some value)) :
    machine.Filled slots after := by
  refine ⟨by rw [h, Array.size_setIfInBounds], fun other held hheld ↦ ?_, fun other hother ↦ ?_⟩
  · rw [h, Array.getElem?_setIfInBounds_ne]
    · exact hheld
    · rintro rfl
      rw [hunset] at hheld
      cases hheld
  · rw [h, Array.getElem?_setIfInBounds_ne]
    rintro rfl
    exact hother hslot

/-- The code outside of functions only moves forward. -/
theorem Moved.outermost_le (h : machine.Moved after) :
    machine.outermost.ip ≤ after.outermost.ip := by
  unfold outermost
  cases h with
  | onward hcallers hip =>
    rw [hcallers]
    cases machine.callers[0]? with
    | none => exact Nat.le_of_lt hip
    | some frame => exact Nat.le_refl _
  | called caller hcallers hip =>
    rw [hcallers, first_push]
    cases machine.callers[0]? with
    | none => exact Nat.le_of_lt hip
    | some frame => exact Nat.le_refl _
  | returned hcallers =>
    exact Nat.le_of_eq (by rw [hcallers, first_push])

theorem outermost_of_empty (h : machine.callers = #[]) : machine.outermost = machine.frame := by
  simp [outermost, h]

/-- A step sets a global, or leaves them all alone. -/
theorem Sound.steady_or_sets (h : machine.Sound constants globals longest) :
    Ends Run.step machine (fun _ after ↦ machine.Steady after) (fun _ after ↦ machine.Steady after) ∨
      ∃ slot, slot < globalsSize ∧
        Loaded machine.frame.routine.code machine.frame.ip [⟨.setGlobal, [slot]⟩] := by
  rcases h.frame.instruction with hend | ⟨⟨opcode, operands⟩, hloaded, hfits, _⟩
  · exact .inl (Run.steady_step_at_end hend)
  · by_cases hopcode : opcode = .setGlobal
    · subst hopcode
      obtain ⟨slot, rfl, hslot⟩ := hfits.eq_single rfl
      exact .inr ⟨slot, hslot, hloaded⟩
    · exact .inl (Run.steady_step_of_loaded hloaded hopcode)

namespace Filling

/-- Where a global is set next, no function waits, and it has no value yet. -/
theorem sets_next {slot : Nat} (h : machine.Filling code)
    (hsound : machine.Sound constants globals longest) (hquiet : QuietPool constants)
    (hslot : slot < globalsSize)
    (hloaded : Loaded machine.frame.routine.code machine.frame.ip [⟨.setGlobal, [slot]⟩]) :
    machine.callers = #[] ∧ machine.globals[slot]?.join = none ∧
      ∃ done rest, code = done ++ ⟨.setGlobal, [slot]⟩ :: rest ∧ machine.frame.ip = size done := by
  obtain ⟨done, others, hcode, hip, hwell⟩ := hsound.frame.at_loaded hloaded (.cons hslot .nil)
  cases hempty : machine.callers.isEmpty with
  | false =>
    have hframe := hsound.frame
    rw [hempty] at hframe
    have hnone := hframe.sets_eq_nil hquiet hcode hwell.fits
    simp [sets, Instruction.sets?] at hnone
  | true =>
    have hcallers := Array.isEmpty_iff.mp hempty
    have houtermost := h.outermost
    rw [outermost_of_empty hcallers, hcode] at houtermost
    have hwhole := (Instruction.eq_of_encodeAll_eq hwell.fits h.fits houtermost).symm
    refine ⟨hcallers, h.ahead done _ hwhole ?_ slot (by simp [sets, Instruction.sets?]), done, others,
      hwhole, hip⟩
    exact Nat.le_of_eq (by rw [outermost_of_empty hcallers, hip])

theorem of_steady (h : machine.Filling code) (hsteady : machine.Steady after)
    (hmoved : machine.Moved after) : after.Filling code := by
  refine ⟨hsteady.routine ▸ h.outermost, h.fits, h.nodup, fun done rest hcode hip slot hslot ↦ ?_⟩
  rw [hsteady.globals]
  exact h.ahead done rest hcode (Nat.le_trans hmoved.outermost_le hip) slot hslot

/-- The global that was set is not set again. -/
theorem of_set {slot : Nat} {value : Value} {done rest : List Instruction}
    (h : machine.Filling code) (hcallers : machine.callers = #[])
    (hcode : code = done ++ ⟨.setGlobal, [slot]⟩ :: rest) (hip : machine.frame.ip = size done)
    (hkept : after.callers = machine.callers) (hframe : after.frame = (machine.advance 3).frame)
    (hset : after.globals = machine.globals.setIfInBounds slot (some value)) :
    after.Filling code := by
  have hbefore := outermost_of_empty hcallers
  have hafter := outermost_of_empty (hkept.trans hcallers)
  have houtermost := h.outermost
  rw [hbefore] at houtermost
  refine ⟨?_, h.fits, h.nodup, fun first last hsplit hfirst other hother ↦ ?_⟩
  · rw [hafter, hframe]
    exact houtermost
  · have hstart : size (done ++ [⟨.setGlobal, [slot]⟩]) = size done + 3 := by
      rw [Instruction.size_append]
      rfl
    rw [hafter, hframe] at hfirst
    have hbehind : size (done ++ [⟨.setGlobal, [slot]⟩]) ≤ size first := by
      rw [hstart, ← hip]
      exact hfirst
    have hsuffix : last <:+ rest :=
      Instruction.suffix_of_size_le (by simp [← hsplit, hcode]) hbehind
    have hmem : other ∈ sets rest := (hsuffix.filterMap _).subset hother
    have hnodup := h.nodup
    rw [hcode, Instruction.sets_append] at hnodup
    have hdifferent : slot ≠ other := by
      rintro rfl
      exact (List.nodup_cons.mp (List.nodup_append.mp hnodup).2.1).1 hmem
    rw [hset, Array.getElem?_setIfInBounds_ne hdifferent]
    refine h.ahead first last hsplit ?_ other hother
    rw [hbefore]
    exact Nat.le_trans (Nat.le_add_right _ 3) hfirst

theorem step (h : machine.Filling code) (hsound : machine.Sound constants globals longest)
    (hpool : ValidPool constants globals) (hlongest : CodeWithin constants longest)
    (hquiet : QuietPool constants) :
    Ends Run.step machine
      (fun progress after ↦ machine.Filled (sets code) after ∧ (progress = .running →
        after.Filling code ∧ after.Sound constants globals longest))
      fun _ after ↦ machine.Filled (sets code) after := by
  have houtcome := hsound.step hpool hlongest
  rcases hsound.steady_or_sets with hsteady | ⟨slot, hslot, hloaded⟩
  · cases hresult : Run.step machine with
    | error error after => exact .of_error hresult (.of_eq (hsteady.at_error hresult).globals)
    | ok progress after =>
      have hsame := hsteady.at_ok hresult
      refine .of_ok hresult ⟨.of_eq hsame.globals, ?_⟩
      rintro rfl
      rw [hresult] at houtcome
      exact ⟨h.of_steady hsame houtcome.2, houtcome.1⟩
  · obtain ⟨hcallers, hunset, done, rest, hcode, hip⟩ := h.sets_next hsound hquiet hslot hloaded
    have hmem : slot ∈ sets code := by
      rw [hcode]
      simp [sets, Instruction.sets?]
    have hset := Run.step_setGlobal hloaded hslot
    cases hresult : Run.step machine with
    | error error after => exact .of_error hresult (.of_eq (hset.at_error hresult).globals)
    | ok progress after =>
      obtain ⟨rfl, hkept, hframe, value, _, hglobals⟩ := hset.at_ok hresult
      rw [hresult] at houtcome
      exact .of_ok hresult ⟨.of_set hmem hunset hglobals, fun _ ↦
        ⟨h.of_set hcallers hcode hip hkept hframe hglobals, houtcome.1⟩⟩

/-- A run keeps the values that globals have. -/
theorem reaches {count : Nat} (hreaches : machine.Reaches count after) (h : machine.Filling code)
    (hsound : machine.Sound constants globals longest)
    (hpool : ValidPool constants globals) (hlongest : CodeWithin constants longest)
    (hquiet : QuietPool constants) :
    machine.Filled (sets code) after ∧ after.Filling code ∧
      after.Sound constants globals longest := by
  induction hreaches with
  | here => exact ⟨.of_eq rfl, h, hsound⟩
  | next hstep _ ih =>
    have hfirst := (h.step hsound hpool hlongest hquiet).at_ok hstep
    obtain ⟨hnext, hmiddle⟩ := hfirst.2 rfl
    obtain ⟨hfilled, hlast⟩ := ih hnext hmiddle
    exact ⟨hfirst.1.trans hfilled, hlast⟩

end Filling

end Machine

end StackScript
