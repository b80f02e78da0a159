import StackScript.Proofs.Machine.Globals
import StackScript.Proofs.Machine.Layers

/-!
Which way a run takes. A step that leads on moves the innermost of the functions at work on in its
code, lets it wait for another one that begins, or takes it away (`Machine.Turned`). So a function
that is still at work later stands further on in the same code (`Machine.Inside.further`). The value
that was discarded last is changed by the one operation that discards a value, whichever function
does it (`Machine.Discards`).
-/

set_option autoImplicit false
set_option relaxedAutoImplicit false

namespace StackScript

open Instruction (size encodeAll)

/-! ### Operations that go elsewhere -/

namespace Run

open Machine

/-- The operations that go elsewhere, discard a value or set a global. -/
def turning : List Opcode :=
  [.pop, .jump, .jumpNotTruthy, .setGlobal, .call, .returnValue, .ret]

/-- All other operations work on the stack alone. -/
theorem plain_perform {instruction : Instruction} (hfits : instruction.Fits)
    (hplain : instruction.opcode ∉ turning) :
    ∃ action, perform instruction = goOn action ∧ Plain action := by
  obtain ⟨opcode, operands⟩ := instruction
  cases opcode
  case pop | jump | jumpNotTruthy | setGlobal | call | returnValue | ret =>
    exact absurd (by simp [turning]) hplain
  case constant =>
    obtain ⟨entry, rfl, _⟩ := hfits.eq_single rfl
    exact ⟨_, rfl, plain_loadConstant entry⟩
  case closure =>
    obtain ⟨entry, count, rfl, _⟩ := hfits.eq_pair rfl
    exact ⟨_, rfl, plain_makeClosure entry count⟩
  case getGlobal =>
    obtain ⟨index, rfl, _⟩ := hfits.eq_single rfl
    exact ⟨_, rfl, plain_loadGlobal index⟩
  case setLocal =>
    obtain ⟨index, rfl, _⟩ := hfits.eq_single rfl
    exact ⟨_, rfl, plain_storeLocal index⟩
  case getLocal =>
    obtain ⟨index, rfl, _⟩ := hfits.eq_single rfl
    exact ⟨_, rfl, plain_loadLocal index⟩
  case getFree =>
    obtain ⟨index, rfl, _⟩ := hfits.eq_single rfl
    exact ⟨_, rfl, plain_loadFree index⟩
  case getBuiltin =>
    obtain ⟨index, rfl, _⟩ := hfits.eq_single rfl
    exact ⟨_, rfl, plain_loadBuiltin index⟩
  case array =>
    obtain ⟨count, rfl, _⟩ := hfits.eq_single rfl
    exact ⟨_, rfl, plain_makeArray count⟩
  case hash =>
    obtain ⟨count, rfl, _⟩ := hfits.eq_single rfl
    exact ⟨_, rfl, plain_makeHash count⟩
  all_goals
    obtain rfl := hfits.eq_nil rfl
  case add | sub | mul | div => exact ⟨_, rfl, plain_arithmetic (by decide)⟩
  case equal | notEqual | greaterThan => exact ⟨_, rfl, plain_comparison (by decide)⟩
  case bang => exact ⟨_, rfl, plain_not⟩
  case minus => exact ⟨_, rfl, plain_negate⟩
  case true | false | null => exact ⟨_, rfl, plain_push _⟩
  case currentClosure => exact ⟨_, rfl, plain_currentClosure⟩
  case index => exact ⟨_, rfl, plain_index⟩

variable {machine after : Machine} {value : Value}

theorem callers_of_returnFromCall (h : returnFromCall value machine = .ok () after) :
    machine.callers = after.callers.push after.frame ∧ after.lastPopped = machine.lastPopped := by
  rw [returnFromCall_eq] at h
  cases hback : machine.callers.back? with
  | none =>
    rw [hback] at h
    cases h
  | some caller =>
    obtain ⟨rest, hrest⟩ := Array.back?_eq_some_iff.mp hback
    cases hbase : machine.frame.base with
    | zero =>
      rw [hback, hbase] at h
      cases h
    | succ callee =>
      rw [hback, hbase] at h
      obtain ⟨-, hframe, hcallers, hpopped⟩ := (plain_push value).at_ok h
      rw [hframe, hcallers, hrest, Array.pop_push]
      exact ⟨rfl, hpopped⟩

/-- After a return the program goes on only if it was one from a function. -/
theorem returnFromCall_of_returnWith (h : returnWith value machine = .ok .running after) :
    returnFromCall value machine = .ok () after := by
  obtain ⟨top, middle, htop, hrest⟩ := bind_eq_ok_iff.mp h
  cases htop
  split at hrest
  · obtain ⟨_, _, _, hend⟩ := bind_eq_ok_iff.mp hrest
    cases hend
  · obtain ⟨_, _, hback, hend⟩ := bind_eq_ok_iff.mp hrest
    cases hend
    exact hback

theorem callers_of_returnWith (h : returnWith value machine = .ok .running after) :
    machine.callers = after.callers.push after.frame ∧ after.lastPopped = machine.lastPopped :=
  callers_of_returnFromCall (returnFromCall_of_returnWith h)

theorem callers_of_callClosure {label : Label} {routine : Routine} {free : List Value}
    {count : Nat} (h : callClosure label routine free count machine = .ok () after) :
    after.callers = machine.callers.push machine.frame ∧
      after.frame = ⟨label, routine, free, 0, machine.sp - count⟩ ∧
      after.lastPopped = machine.lastPopped := by
  obtain ⟨cleared, hclear, rfl⟩ := cleared_of_callClosure h
  obtain ⟨-, hframe, hcallers, hpopped⟩ := (plain_clearSlots _ _).at_ok hclear
  exact ⟨by rw [hframe, hcallers], rfl, hpopped⟩

end Run

/-! ### Steps -/

/-- Where the instruction at which the function stands may lead inside of it. -/
def Frame.LeadsTo (frame : Frame) (ip : Nat) : Prop :=
  ∃ instruction : Instruction, Loaded frame.routine.code frame.ip [instruction] ∧
    instruction.Fits ∧ (instruction.leadsOn ∧ ip = frame.ip + instruction.length ∨
      instruction.target? = some ip)

/-- The function at work is at the beginning of its code, and only its arguments are set. -/
structure Machine.Begun (machine : Machine) : Prop where
  ip : machine.frame.ip = 0
  unset (index : Nat) : machine.frame.routine.parameters ≤ index →
    index < machine.frame.routine.locals → machine.stack[machine.frame.base + index]? = some none

/-- What a step that leads on does to the functions at work. -/
inductive Machine.Turned (before after : Machine) : Prop
  | onward (ip : Nat) (hleads : before.frame.LeadsTo ip)
    (hframe : after.frame = { before.frame with ip := ip })
    (hcallers : after.callers = before.callers)
  | called (ip : Nat) (hleads : before.frame.LeadsTo ip)
    (hcallers : after.callers = before.callers.push { before.frame with ip := ip })
    (hbegins : after.Begun)
  | returned (hcallers : before.callers = after.callers.push after.frame)

namespace Run

open Machine

variable {machine after : Machine}

theorem getElem?_of_writeSlot {slot : Nat} {content : Option Value}
    (h : writeSlot slot content machine = .ok () after) (other : Nat) :
    after.stack[other]? = if slot = other then some content else machine.stack[other]? := by
  unfold writeSlot at h
  split at h
  · cases h
    rw [Array.getElem?_setIfInBounds]
    split <;> rfl
  · cases h

theorem getElem?_of_clearSlots {first count : Nat} (h : clearSlots first count machine = .ok () after)
    (slot : Nat) : after.stack[slot]? =
      if first ≤ slot ∧ slot < first + count then some none else machine.stack[slot]? := by
  induction count generalizing first machine with
  | zero =>
    cases h
    rw [if_neg (by omega)]
  | succ count ih =>
    obtain ⟨_, middle, hwrite, hrest⟩ := bind_eq_ok_iff.mp h
    rw [ih hrest, getElem?_of_writeSlot hwrite]
    by_cases hfirst : first = slot
    · rw [if_neg (by omega), if_pos hfirst, if_pos (by omega)]
    · rw [if_neg hfirst]
      exact if_congr (by omega) rfl rfl

theorem begun_of_callClosure {label : Label} {routine : Routine} {free : List Value} {count : Nat}
    (h : callClosure label routine free count machine = .ok () after) : after.Begun := by
  have hcount : count = routine.parameters ∧ count ≤ machine.sp := by
    rw [callClosure_eq] at h
    split at h
    · cases h
    split at h
    · cases h
    split at h
    · cases h
    · next hcount _ hsp => exact ⟨not_not.mp hcount, Nat.le_of_not_lt hsp⟩
  obtain ⟨cleared, hclear, rfl⟩ := cleared_of_callClosure h
  refine ⟨rfl, fun index hparameters hindex ↦ ?_⟩
  dsimp only at hparameters hindex ⊢
  rw [getElem?_of_clearSlots hclear, if_pos (by omega)]

/-- A call begins with a function, or is that of a provided one and done. -/
theorem turned_of_call {count : Nat} (h : call count machine = .ok () after) :
    (after.callers = machine.callers.push machine.frame ∧ after.Begun ∨
      after.frame = machine.frame ∧ after.callers = machine.callers) ∧
      after.lastPopped = machine.lastPopped := by
  rw [call, getSp_bind, check_apply] at h
  split at h
  · cases h
  obtain ⟨content, middle, hread, hrest⟩ := bind_eq_ok_iff.mp h
  obtain ⟨-, hframe, hcallers, hpopped⟩ := (plain_readSlot _).at_ok hread
  split at hrest
  · cases hrest
  · obtain ⟨hpushed, _, hkept⟩ := callers_of_callClosure hrest
    rw [hpushed, hcallers, hframe]
    exact ⟨.inl ⟨rfl, begun_of_callClosure hrest⟩, hkept.trans hpopped⟩
  · obtain ⟨-, hsame, hwait, hkept⟩ := (plain_callBuiltin _ _).at_ok hrest
    exact ⟨.inr ⟨hsame.trans hframe, hwait.trans hcallers⟩, hkept.trans hpopped⟩
  · cases hrest

/-- What comes of an instruction, once it is read. Nothing but one operation changes the value that
was discarded last. -/
theorem turned_of_perform {instruction : Instruction}
    (hloaded : Loaded machine.frame.routine.code machine.frame.ip [instruction])
    (hfits : instruction.Fits)
    (h : perform instruction (machine.advance instruction.length) = .ok .running after) :
    machine.Turned after ∧
      (instruction.opcode ≠ .pop → after.lastPopped = machine.lastPopped) := by
  have honward : instruction.leadsOn →
      machine.frame.LeadsTo (machine.frame.ip + instruction.length) :=
    fun hleads ↦ ⟨instruction, hloaded, hfits, .inl ⟨hleads, rfl⟩⟩
  have hjump : ∀ target, instruction.target? = some target → machine.frame.LeadsTo target :=
    fun target htarget ↦ ⟨instruction, hloaded, hfits, .inr htarget⟩
  by_cases hplain : instruction.opcode ∉ turning
  · obtain ⟨action, haction, hworks⟩ := plain_perform hfits hplain
    rw [haction] at h
    obtain ⟨_, middle, hdone, hend⟩ := bind_eq_ok_iff.mp h
    cases hend
    obtain ⟨-, hframe, hcallers, hpopped⟩ := hworks.at_ok hdone
    refine ⟨.onward _ (honward ?_) hframe hcallers, fun _ ↦ hpopped⟩
    obtain ⟨opcode, operands⟩ := instruction
    cases opcode
    case jump | returnValue | ret => exact absurd (by simp [turning]) hplain
    all_goals rfl
  obtain ⟨opcode, operands⟩ := instruction
  cases opcode
  case pop =>
    obtain rfl := hfits.eq_nil rfl
    obtain ⟨_, middle, hdone, hend⟩ := bind_eq_ok_iff.mp h
    cases hend
    obtain ⟨value, popped, hpop, hset⟩ := bind_eq_ok_iff.mp hdone
    cases hset
    obtain ⟨-, hframe, hcallers, _⟩ := plain_pop.at_ok hpop
    exact ⟨.onward _ (honward rfl) hframe hcallers, fun hne ↦ absurd rfl hne⟩
  case setGlobal =>
    obtain ⟨index, rfl, _⟩ := hfits.eq_single rfl
    obtain ⟨_, middle, hdone, hend⟩ := bind_eq_ok_iff.mp h
    cases hend
    obtain ⟨value, popped, hpop, hwrite⟩ := bind_eq_ok_iff.mp hdone
    obtain ⟨-, hframe, hcallers, hpopped⟩ := plain_pop.at_ok hpop
    unfold writeGlobal at hwrite
    split at hwrite <;> cases hwrite
    exact ⟨.onward _ (honward rfl) hframe hcallers, fun _ ↦ hpopped⟩
  case jump =>
    obtain ⟨target, rfl, _⟩ := hfits.eq_single rfl
    cases h
    exact ⟨.onward target (hjump target rfl) rfl rfl, fun _ ↦ rfl⟩
  case jumpNotTruthy =>
    obtain ⟨target, rfl, _⟩ := hfits.eq_single rfl
    obtain ⟨_, middle, hdone, hend⟩ := bind_eq_ok_iff.mp h
    cases hend
    obtain ⟨value, popped, hpop, hbranch⟩ := bind_eq_ok_iff.mp hdone
    obtain ⟨-, hframe, hcallers, hpopped⟩ := plain_pop.at_ok hpop
    cases htruthy : value.isTruthy with
    | true =>
      rw [htruthy] at hbranch
      cases hbranch
      exact ⟨.onward _ (honward rfl) hframe hcallers, fun _ ↦ hpopped⟩
    | false =>
      rw [htruthy] at hbranch
      cases hbranch
      refine ⟨.onward target (hjump target rfl) ?_ hcallers, fun _ ↦ hpopped⟩
      simp only [hframe]
      rfl
  case call =>
    obtain ⟨count, rfl, _⟩ := hfits.eq_single rfl
    obtain ⟨_, middle, hdone, hend⟩ := bind_eq_ok_iff.mp h
    cases hend
    obtain ⟨hcall | hcall, hpopped⟩ := turned_of_call hdone
    · exact ⟨.called _ (honward rfl) hcall.1 hcall.2, fun _ ↦ hpopped⟩
    · exact ⟨.onward _ (honward rfl) hcall.1 hcall.2, fun _ ↦ hpopped⟩
  case returnValue =>
    obtain rfl := hfits.eq_nil rfl
    obtain ⟨value, popped, hpop, hreturn⟩ := bind_eq_ok_iff.mp h
    obtain ⟨-, _, hcallers, hpopped⟩ := plain_pop.at_ok hpop
    obtain ⟨hback, hkept⟩ := callers_of_returnWith hreturn
    exact ⟨.returned (hcallers.symm.trans hback), fun _ ↦ hkept.trans hpopped⟩
  case ret =>
    obtain rfl := hfits.eq_nil rfl
    obtain ⟨hback, hkept⟩ := callers_of_returnWith h
    exact ⟨.returned hback, fun _ ↦ hkept⟩
  all_goals exact absurd (by simp [turning]) hplain

end Run

section Runs

variable {constants : Array Value} {globals longest : Nat} {machine middle after later : Machine}

/-- What a step that leads on does, from a machine that is in order. -/
theorem Machine.Sound.turned (h : machine.Sound constants globals longest)
    (hstep : Run.step machine = .ok .running after) : machine.Turned after := by
  rcases h.frame.instruction with hend | ⟨instruction, hloaded, hfits, -⟩
  · rw [Run.step_at_end hend] at hstep
    split at hstep
    · cases hstep
    · obtain ⟨_, _, hback, hgone⟩ := bind_eq_ok_iff.mp hstep
      cases hgone
      exact .returned (Run.callers_of_returnFromCall hback).1
  · rw [Run.step_eq_perform hloaded hfits] at hstep
    exact (Run.turned_of_perform hloaded hfits hstep).1

/-- The code of a function leads forward only. -/
theorem Frame.Sound.lt_of_leadsTo {inFunction : Bool} {frame : Frame} {ip : Nat}
    (h : frame.Sound constants globals longest inFunction) (hleads : frame.LeadsTo ip) :
    frame.ip < ip := by
  obtain ⟨instruction, hloaded, hfits, ⟨-, rfl⟩ | htarget⟩ := hleads
  · exact Nat.lt_add_of_pos_right instruction.length_pos
  · obtain ⟨done, rest, hcode, hip, hwell⟩ := h.at_loaded hloaded hfits
    obtain ⟨skipped, _, _, hposition⟩ := hwell.forward.right.1 ip htarget
    have hlength := instruction.length_pos
    omega

theorem Machine.size_frames (machine : Machine) :
    machine.frames.size = machine.callers.size + 1 :=
  Array.size_push _

theorem Machine.getElem?_frames_size (machine : Machine) :
    machine.frames[machine.callers.size]? = some machine.frame :=
  Array.getElem?_push_size

theorem Machine.getElem?_frames_of_lt {i : Nat} (h : i < machine.callers.size) :
    machine.frames[i]? = machine.callers[i]? := by
  rw [Machine.frames, Array.getElem?_push_lt h, Array.getElem?_eq_getElem h]

/-- The functions that wait, and go on to do so, are left as they are. -/
theorem Machine.Turned.kept {before : Machine} (h : before.Turned after) {i : Nat}
    (hbefore : i < before.callers.size) : after.frames[i]? = before.frames[i]? := by
  rw [getElem?_frames_of_lt hbefore]
  cases h with
  | onward _ _ _ hcallers =>
    rw [getElem?_frames_of_lt (by rwa [hcallers]), hcallers]
  | called _ _ hcallers _ =>
    rw [getElem?_frames_of_lt (by rw [hcallers, Array.size_push]; omega), hcallers,
      Array.getElem?_push_lt hbefore, Array.getElem?_eq_getElem hbefore]
  | returned hcallers => rw [hcallers]; rfl

/-- The function at work moves on, unless it is taken away. -/
theorem Machine.Turned.moves {before : Machine} (h : before.Turned after)
    (hafter : before.callers.size ≤ after.callers.size) :
    ∃ ip, before.frame.LeadsTo ip ∧
      after.frames[before.callers.size]? = some { before.frame with ip := ip } := by
  cases h with
  | onward ip hleads hframe hcallers =>
    refine ⟨ip, hleads, ?_⟩
    rw [← hcallers, after.getElem?_frames_size, hframe]
  | called ip hleads hcallers _ =>
    refine ⟨ip, hleads, ?_⟩
    rw [getElem?_frames_of_lt (by rw [hcallers, Array.size_push]; omega), hcallers,
      Array.getElem?_push_size]
  | returned hcallers =>
    rw [hcallers, Array.size_push] at hafter
    omega

/-- One function more at work is one that begins. -/
theorem Machine.Turned.begun {before : Machine} (h : before.Turned after)
    (hdeeper : before.callers.size < after.callers.size) : after.Begun := by
  cases h with
  | onward _ _ _ hcallers =>
    rw [hcallers] at hdeeper
    exact absurd hdeeper (Nat.lt_irrefl _)
  | called _ _ _ hbegins => exact hbegins
  | returned hcallers =>
    rw [hcallers, Array.size_push] at hdeeper
    omega

/-- The functions at work in the first machine are at work in the second, the innermost of them
further on in its code. -/
structure Machine.Outlasts (machine later : Machine) : Prop where
  waiting (i : Nat) : i < machine.callers.size → later.frames[i]? = machine.frames[i]?
  further : ∃ ip, machine.frame.ip < ip ∧
    later.frames[machine.callers.size]? = some { machine.frame with ip := ip }

/-- A step that does not take the function at work away moves it on. -/
theorem Machine.Sound.outlasts (h : machine.Sound constants globals longest)
    (hstep : Run.step machine = .ok .running after)
    (hafter : machine.callers.size ≤ after.callers.size) : machine.Outlasts after := by
  have hturned := h.turned hstep
  obtain ⟨ip, hleads, hmoved⟩ := hturned.moves hafter
  exact ⟨fun i hi ↦ hturned.kept hi, ip, h.frame.lt_of_leadsTo hleads, hmoved⟩

/-- A step that takes none of the functions away keeps them at work. -/
theorem Machine.Outlasts.step (h : machine.Outlasts middle)
    (hsound : middle.Sound constants globals longest)
    (hstep : Run.step middle = .ok .running after)
    (hmiddle : machine.callers.size ≤ middle.callers.size)
    (hafter : machine.callers.size ≤ after.callers.size) : machine.Outlasts after := by
  have hturned := hsound.turned hstep
  obtain ⟨ip, hip, hframe⟩ := h.further
  refine ⟨fun i hi ↦ ?_, ?_⟩
  · rw [hturned.kept (by omega), h.waiting i hi]
  rcases Nat.lt_or_eq_of_le hmiddle with hless | heq
  · exact ⟨ip, hip, by rw [hturned.kept hless, hframe]⟩
  · obtain ⟨next, hleads, hmoved⟩ := hturned.moves (heq ▸ hafter)
    rw [heq, middle.getElem?_frames_size] at hframe
    have hsame := Option.some.inj hframe
    have hmore := hsound.frame.lt_of_leadsTo hleads
    rw [hsame] at hmoved hmore
    rw [← heq] at hmoved
    exact ⟨next, Nat.lt_trans hip hmore, hmoved⟩

/-- With the same number of callers it is the function itself that is at work again. -/
theorem Machine.Outlasts.atWork (h : machine.Outlasts later)
    (hback : later.callers.size = machine.callers.size) :
    later.callers = machine.callers ∧
      ∃ ip, machine.frame.ip < ip ∧ later.frame = { machine.frame with ip := ip } := by
  refine ⟨Array.ext_getElem? fun i ↦ ?_, ?_⟩
  · rcases Nat.lt_or_ge i machine.callers.size with hi | hi
    · rw [← getElem?_frames_of_lt hi, ← h.waiting i hi, getElem?_frames_of_lt (hback ▸ hi)]
    · rw [Array.getElem?_eq_none hi, Array.getElem?_eq_none (hback ▸ hi)]
  · obtain ⟨ip, hip, hframe⟩ := h.further
    rw [← hback, later.getElem?_frames_size] at hframe
    exact ⟨ip, hip, Option.some.inj hframe⟩

variable (hpool : ValidPool constants globals) (hlongest : CodeWithin constants longest)

include hpool hlongest

/-- As long as a run keeps at least as many functions at work, it keeps these. -/
theorem Machine.Outlasts.inside (h : machine.Outlasts middle)
    (hsound : middle.Sound constants globals longest)
    (hdepth : machine.callers.size ≤ middle.callers.size)
    (hinside : Inside machine.callers.size middle later) : machine.Outlasts later := by
  induction hinside with
  | here _ => exact h
  | next hstep hkeeps _ ih =>
    exact ih (h.step hsound hstep hdepth hkeeps) (hsound.next hpool hlongest hstep) hkeeps

/-- A function that is at work again stands further on in its code, and its callers wait as
before. -/
theorem Machine.Inside.further (h : machine.Sound constants globals longest)
    (hstep : Run.step machine = .ok .running middle)
    (hdepth : machine.callers.size ≤ middle.callers.size)
    (hinside : Inside machine.callers.size middle later)
    (hback : later.callers.size = machine.callers.size) :
    later.callers = machine.callers ∧
      ∃ ip, machine.frame.ip < ip ∧ later.frame = { machine.frame with ip := ip } :=
  ((h.outlasts hstep hdepth).inside hpool hlongest (h.next hpool hlongest hstep) hdepth
    hinside).atWork hback

end Runs

end StackScript
