import StackScript.Proofs.Instruction.Codec
import StackScript.Proofs.Machine.Turns

/-!
What a step reads. It reports an unknown or a truncated instruction exactly where there is none to
be decoded from the bytes ahead. Otherwise it carries out the one that is, and leaves the function
at work right behind it, whether or not it fails, unless the instruction goes elsewhere
(`Run.step_decodes`).
-/

set_option autoImplicit false
set_option relaxedAutoImplicit false

namespace StackScript

open Instruction (readOperand? readOperands?)
open Opcode (Width)

namespace Machine

/-- The function at work stands where it stood, and the same functions wait for it. -/
structure InPlace (before after : Machine) : Prop where
  frame : after.frame = before.frame
  callers : after.callers = before.callers

theorem InPlace.refl (machine : Machine) : machine.InPlace machine :=
  ⟨rfl, rfl⟩

theorem InPlace.trans {first second third : Machine} (h : first.InPlace second)
    (hnext : second.InPlace third) : first.InPlace third :=
  ⟨hnext.frame.trans h.frame, hnext.callers.trans h.callers⟩

theorem Restacked.inPlace {before after : Machine} (h : before.Restacked after) :
    before.InPlace after :=
  ⟨h.frame, h.callers⟩

/-- The instruction goes elsewhere from here: it is a jump that is taken, a call that a function
begins with, or a return. -/
inductive Departs (machine : Machine) : Instruction → Prop
  | jump (target : Nat) : machine.Departs ⟨.jump, [target]⟩
  | jumpNotTruthy (target : Nat) {condition : Value} (htop : machine.stackTop = some condition)
    (hfalsy : condition.isTruthy = false) : machine.Departs ⟨.jumpNotTruthy, [target]⟩
  | call (count : Nat) {label : Label} {routine : Routine} {free : List Value} {after : Machine}
    (hcallee : machine.stack[machine.sp - (count + 1)]? = some (some (.closure label routine free)))
    (hcalled : Run.call count machine = .ok () after) : machine.Departs ⟨.call, [count]⟩
  | returnValue : machine.Departs ⟨.returnValue, []⟩
  | ret : machine.Departs ⟨.ret, []⟩

end Machine

namespace Run

open Machine

/-! ### Operands that are cut short -/

variable {machine after : Machine} {error : RunError}

/-- Where the bytes ahead are too few, nothing but the place in the code has changed. -/
theorem operands_eq_truncated {widths : List Width}
    (h : readOperands? widths machine.ahead = none) :
    ∃ count < Width.total widths, operands widths machine =
      .error (.truncatedInstruction (machine.frame.ip + count)) (machine.advance count) := by
  induction widths generalizing machine with
  | nil => cases h
  | cons width widths ih =>
    have hread := operand_eq width machine
    cases hfirst : readOperand? width machine.ahead with
    | none =>
      rw [hfirst] at hread
      have hwidth : 0 < width.bytes := by cases width <;> decide
      exact ⟨0, Nat.add_pos_left hwidth _, bind_of_error hread⟩
    | some decoded =>
      obtain ⟨first, middle⟩ := decoded
      rw [hfirst] at hread
      have hrest : readOperands? widths (machine.advance width.bytes).ahead = none := by
        rw [machine.ahead_advance, ← rest_of_readOperand? hfirst]
        cases hothers : readOperands? widths middle with
        | none => rfl
        | some others =>
          rw [readOperands?, hfirst] at h
          simp [hothers] at h
      obtain ⟨count, hcount, htruncated⟩ := ih hrest
      refine ⟨width.bytes + count, Nat.add_lt_add_left hcount _, ?_⟩
      rw [operands, bind_of_ok hread, bind_of_error htruncated, advance_advance, advance,
        Nat.add_assoc]

/-! ### Carrying an instruction out -/

section Stays

variable {α β : Type} {elsewhere : Prop}

/-- The action leaves the functions at work as they are, unless it goes elsewhere; and it fails with
no error of reading. -/
def Stays (elsewhere : Prop) (action : Run α) (machine : Machine) : Prop :=
  Ends action machine (fun _ after ↦ elsewhere ∨ machine.InPlace after)
    fun error after ↦ (elsewhere ∨ machine.InPlace after) ∧ error.isOfReading = false

theorem Plain.stays {action : Run α} (h : Plain action) (machine : Machine) :
    Stays elsewhere action machine :=
  (h machine).mono (fun _ _ hdone ↦ .inr hdone.inPlace) fun _ _ hfailed ↦
    ⟨.inr hfailed.1.inPlace, hfailed.2⟩

/-- What comes behind an action on the stack alone may use what that action yields. -/
theorem Plain.bind_stays {action : Run α} {next : α → Run β} (h : Plain action)
    (hnext : ∀ yielded middle, action machine = .ok yielded middle →
      Stays elsewhere (next yielded) middle) :
    Stays elsewhere (action >>= next) machine := by
  cases haction : action machine with
  | error error middle =>
    obtain ⟨hmiddle, herror⟩ := (h machine).at_error haction
    exact .of_error (bind_of_error haction) ⟨.inr hmiddle.inPlace, herror⟩
  | ok yielded middle =>
    have hmiddle := ((h machine).at_ok haction).inPlace
    refine .of_eq_from (bind_of_ok haction) ?_
    refine (hnext yielded middle haction).mono (fun _ _ hdone ↦ hdone.imp_right hmiddle.trans) ?_
    exact fun _ _ hfailed ↦ ⟨hfailed.1.imp_right hmiddle.trans, hfailed.2⟩

theorem Stays.goOn {action : Run Unit} (h : Stays elsewhere action machine) :
    Stays elsewhere (goOn action) machine :=
  h.bind fun _ _ hdone ↦ .pure hdone

/-- An action that goes elsewhere may leave anything behind. -/
theorem Stays.of_elsewhere {action : Run α} (helsewhere : elsewhere)
    (herror : ∀ error after, action machine = .error error after → error.isOfReading = false) :
    Stays elsewhere action machine := by
  unfold Stays Ends
  cases haction : action machine with
  | ok yielded after => exact .inl helsewhere
  | error error after => exact ⟨.inl helsewhere, herror error after haction⟩

end Stays

theorem isOfReading_of_returnFromCall {value : Value}
    (h : returnFromCall value machine = .error error after) : error.isOfReading = false := by
  rw [returnFromCall_eq] at h
  split at h
  · cases h
    rfl
  · split at h
    · cases h
      rfl
    · exact ((plain_push value _).at_error h).2

theorem isOfReading_of_returnWith {value : Value}
    (h : returnWith value machine = .error error after) : error.isOfReading = false := by
  obtain htop | ⟨top, middle, htop, hrest⟩ := bind_eq_error_iff.mp h
  · cases htop
  cases htop
  split at hrest
  · obtain hfinish | ⟨_, _, _, hend⟩ := bind_eq_error_iff.mp hrest
    · cases hfinish
    · cases hend
  · obtain hback | ⟨_, _, _, hend⟩ := bind_eq_error_iff.mp hrest
    · exact isOfReading_of_returnFromCall hback
    · cases hend

/-- A function does not begin unless all checks are passed. -/
theorem stays_callClosure (label : Label) (routine : Routine) (free : List Value) (count : Nat)
    (machine : Machine) :
    Stays (∃ after, callClosure label routine free count machine = .ok () after)
      (callClosure label routine free count) machine := by
  cases hcall : callClosure label routine free count machine with
  | ok _ after => exact .of_ok hcall (.inl ⟨after, rfl⟩)
  | error error after =>
    suffices machine.InPlace after ∧ error.isOfReading = false from
      .of_error hcall ⟨.inr this.1, this.2⟩
    rw [callClosure_eq] at hcall
    split at hcall
    · cases hcall
      exact ⟨.refl machine, rfl⟩
    split at hcall
    · cases hcall
      exact ⟨.refl machine, rfl⟩
    split at hcall
    · cases hcall
      exact ⟨.refl machine, rfl⟩
    split at hcall
    · cases hcall
      exact ⟨.refl machine, rfl⟩
    split at hcall
    · cases hcall
    · next hclear =>
      cases hcall
      obtain ⟨hplace, herror⟩ := (plain_clearSlots _ _ machine).at_error hclear
      exact ⟨hplace.inPlace, herror⟩

theorem slot_of_readSlot {slot : Nat} {content : Option Value}
    (h : readSlot slot machine = .ok content after) :
    machine.stack[slot]? = some content ∧ machine = after := by
  unfold readSlot at h
  split at h
  · next hslot =>
    cases h
    exact ⟨hslot, rfl⟩
  · cases h

theorem stays_call (count : Nat) (machine : Machine) :
    Stays (machine.Departs ⟨.call, [count]⟩) (call count) machine := by
  unfold call
  refine .of_eq_from (getSp_bind _) (.check (fun _ ↦ ⟨.inr (.refl machine), rfl⟩) fun hroom ↦ ?_)
  refine (plain_readSlot _).bind_stays fun content middle hread ↦ ?_
  obtain ⟨hslot, rfl⟩ := slot_of_readSlot hread
  rcases content with _ | callee
  · exact (Plain.throw rfl).stays machine
  cases callee
  case closure label routine free =>
    have hcall : call count machine = callClosure label routine free count machine := by
      rw [call, getSp_bind, check_apply, if_neg hroom, bind_of_ok hread]
    have hbegins : (∃ after, callClosure label routine free count machine = .ok () after) →
        machine.Departs ⟨.call, [count]⟩ := by
      rintro ⟨after, hafter⟩
      exact .call count hslot (hcall.trans hafter)
    refine (stays_callClosure label routine free count machine).mono ?_ ?_
    · exact fun _ _ hdone ↦ hdone.imp_left hbegins
    · exact fun _ _ hfailed ↦ ⟨hfailed.1.imp_left hbegins, hfailed.2⟩
  case builtin function => exact (plain_callBuiltin function count).stays machine
  all_goals exact (Plain.throw rfl).stays machine

theorem stays_perform {instruction : Instruction} (hfits : instruction.Fits) (machine : Machine) :
    Stays (machine.Departs instruction) (perform instruction) machine := by
  by_cases hplain : instruction.opcode ∉ turning
  · obtain ⟨action, haction, hworks⟩ := plain_perform hfits hplain
    rw [haction]
    exact (hworks.stays machine).goOn
  obtain ⟨opcode, operands⟩ := instruction
  cases opcode
  case pop =>
    obtain rfl := hfits.eq_nil rfl
    refine Stays.goOn (plain_pop.bind_stays fun value middle _ ↦ ?_)
    exact .of_ok rfl (.inr ⟨rfl, rfl⟩)
  case setGlobal =>
    obtain ⟨index, rfl, _⟩ := hfits.eq_single rfl
    refine Stays.goOn (plain_pop.bind_stays fun value middle _ ↦ ?_)
    by_cases hindex : index < middle.globals.size
    · exact .of_ok (if_pos hindex) (.inr ⟨rfl, rfl⟩)
    · exact .of_error (if_neg hindex) ⟨.inr (.refl middle), rfl⟩
  case jump =>
    obtain ⟨target, rfl, _⟩ := hfits.eq_single rfl
    exact Stays.goOn (.of_ok rfl (.inl (.jump target)))
  case jumpNotTruthy =>
    obtain ⟨target, rfl, _⟩ := hfits.eq_single rfl
    refine Stays.goOn (plain_pop.bind_stays fun condition middle hpop ↦ ?_)
    cases htruthy : condition.isTruthy with
    | true => exact .of_ok rfl (.inr (.refl middle))
    | false =>
      have htop := ((ends_pop machine).at_ok hpop).1
      exact .of_ok rfl (.inl (.jumpNotTruthy target htop htruthy))
  case call =>
    obtain ⟨count, rfl, _⟩ := hfits.eq_single rfl
    exact (stays_call count machine).goOn
  case returnValue =>
    obtain rfl := hfits.eq_nil rfl
    refine .of_elsewhere .returnValue fun error after h ↦ ?_
    obtain hpop | ⟨value, middle, _, hreturn⟩ := bind_eq_error_iff.mp h
    · exact ((plain_pop machine).at_error hpop).2
    · exact isOfReading_of_returnWith hreturn
  case ret =>
    obtain rfl := hfits.eq_nil rfl
    exact .of_elsewhere .ret fun _ _ h ↦ isOfReading_of_returnWith h
  all_goals exact absurd (by simp [turning]) hplain

/-! ### Steps -/

section Steps

variable {byte : UInt8} {bytes : List UInt8} {opcode : Opcode}

theorem step_of_unknown (h : machine.ahead = byte :: bytes) (hbyte : Opcode.ofByte? byte = none) :
    step machine = .error (.unknownOpcode byte) (machine.advance 1) := by
  have hfetch := fetch_eq h
  rw [hbyte] at hfetch
  exact bind_of_error hfetch

theorem step_of_truncated (h : machine.ahead = byte :: bytes)
    (hbyte : Opcode.ofByte? byte = some opcode)
    (hbytes : readOperands? opcode.widths bytes = none) :
    ∃ count < opcode.byteLength, step machine =
      .error (.truncatedInstruction (machine.frame.ip + count)) (machine.advance count) := by
  rw [← ahead_of_cons h] at hbytes
  obtain ⟨count, hcount, htruncated⟩ := operands_eq_truncated hbytes
  refine ⟨1 + count, Nat.add_lt_add_left hcount 1, ?_⟩
  rw [step_eq_operands h hbyte, bind_of_error htruncated, advance_advance, advance, Nat.add_assoc]

/-- A step meets no operation, operands that are cut short, or a whole instruction, and then it
fails with no error of reading. -/
theorem step_cases (h : machine.ahead = byte :: bytes) :
    (Opcode.ofByte? byte = none ∧
      step machine = .error (.unknownOpcode byte) (machine.advance 1)) ∨
    (∃ opcode, Opcode.ofByte? byte = some opcode ∧ readOperands? opcode.widths bytes = none ∧
      ∃ count, step machine =
        .error (.truncatedInstruction (machine.frame.ip + count)) (machine.advance count)) ∨
    ∀ error after, step machine = .error error after → error.isOfReading = false := by
  cases hbyte : Opcode.ofByte? byte with
  | none => exact .inl ⟨rfl, step_of_unknown h hbyte⟩
  | some opcode =>
    cases hbytes : readOperands? opcode.widths bytes with
    | none =>
      obtain ⟨count, _, hstep⟩ := step_of_truncated h hbyte hbytes
      exact .inr (.inl ⟨opcode, rfl, hbytes, count, hstep⟩)
    | some decoded =>
      obtain ⟨found, rest⟩ := decoded
      have hfits : Instruction.Fits ⟨opcode, found⟩ :=
        (Instruction.encodeOperands_of_readOperands? hbytes).1
      refine .inr (.inr fun error after hstep ↦ ?_)
      rw [step_of_decoded h hbyte hbytes] at hstep
      exact ((stays_perform hfits _).at_error hstep).2

/-- Spec §4.3 and §4.4, fetch and decode. Assumes: these bytes are ahead of the function at work
(`h`). The step reports an unknown operation if and only if the first byte is the code of none, and
a truncated instruction if and only if there is an operation but its operands cannot be decoded; it
has moved on in the code then, and nothing else has changed. Otherwise it carries out the decoded
instruction from right behind it, and there the function stands afterwards, also where the step
fails, unless the instruction goes elsewhere. -/
theorem step_decodes (h : machine.ahead = byte :: bytes) :
    (∀ reported after, step machine = .error (.unknownOpcode reported) after ↔
      Opcode.ofByte? byte = none ∧ reported = byte ∧ after = machine.advance 1) ∧
    ((∃ offset after, step machine = .error (.truncatedInstruction offset) after) ↔
      ∃ opcode, Opcode.ofByte? byte = some opcode ∧ readOperands? opcode.widths bytes = none) ∧
    (∀ offset after, step machine = .error (.truncatedInstruction offset) after →
      ∃ count, offset = machine.frame.ip + count ∧ after = machine.advance count) ∧
    ∀ opcode operands rest, Opcode.ofByte? byte = some opcode →
      readOperands? opcode.widths bytes = some (operands, rest) →
      step machine = perform ⟨opcode, operands⟩ (machine.advance opcode.byteLength) ∧
      (¬(machine.advance opcode.byteLength).Departs ⟨opcode, operands⟩ →
        Ends step machine (fun _ after ↦ (machine.advance opcode.byteLength).InPlace after)
          fun _ after ↦ (machine.advance opcode.byteLength).InPlace after) := by
  have hcases := step_cases h
  refine ⟨fun reported after ↦ ⟨fun hstep ↦ ?_, ?_⟩, ⟨?_, ?_⟩, ?_, ?_⟩
  · obtain ⟨hbyte, hunknown⟩ | ⟨_, _, _, _, htruncated⟩ | hread := hcases
    · rw [hunknown] at hstep
      cases hstep
      exact ⟨hbyte, rfl, rfl⟩
    · rw [htruncated] at hstep
      cases hstep
    · cases hread _ _ hstep
  · rintro ⟨hbyte, rfl, rfl⟩
    exact step_of_unknown h hbyte
  · rintro ⟨offset, after, hstep⟩
    obtain ⟨_, hunknown⟩ | ⟨opcode, hbyte, hbytes, _⟩ | hread := hcases
    · rw [hunknown] at hstep
      cases hstep
    · exact ⟨opcode, hbyte, hbytes⟩
    · cases hread _ _ hstep
  · rintro ⟨opcode, hbyte, hbytes⟩
    obtain ⟨count, _, hstep⟩ := step_of_truncated h hbyte hbytes
    exact ⟨_, _, hstep⟩
  · intro offset after hstep
    obtain ⟨_, hunknown⟩ | ⟨_, _, _, count, htruncated⟩ | hread := hcases
    · rw [hunknown] at hstep
      cases hstep
    · rw [htruncated] at hstep
      cases hstep
      exact ⟨count, rfl, rfl⟩
    · cases hread _ _ hstep
  · intro opcode operands rest hbyte hbytes
    have hstep := step_of_decoded h hbyte hbytes
    refine ⟨hstep, fun hstays ↦ .of_eq_from hstep ?_⟩
    have hfits : Instruction.Fits ⟨opcode, operands⟩ :=
      (Instruction.encodeOperands_of_readOperands? hbytes).1
    refine (stays_perform hfits _).mono (fun _ _ hdone ↦ hdone.resolve_left hstays) ?_
    exact fun _ _ hfailed ↦ hfailed.1.resolve_left hstays

end Steps

/-- A constant that there is not: the operand is read, and the step fails behind it. -/
theorem step_decodes_missing :
    let machine := Machine.new ⟨#[0, 1, 2], #[]⟩ #[] 0
    machine.ahead = [0, 1, 2] ∧
      ∃ after, step machine = .error (.invalidConstant 258) after ∧ after.frame.ip = 3 := by
  intro machine
  have hahead : machine.ahead = [0, 1, 2] := rfl
  obtain ⟨-, -, -, hdecoded⟩ := step_decodes hahead
  obtain ⟨hstep, hplace⟩ := hdecoded .constant [258] [] rfl rfl
  have hmissing : step machine = .error (.invalidConstant 258) (machine.advance 3) :=
    hstep.trans rfl
  have hstays : ¬(machine.advance 3).Departs ⟨.constant, [258]⟩ := nofun
  refine ⟨hahead, machine.advance 3, hmissing, ?_⟩
  rw [((hplace hstays).at_error hmissing).frame]
  rfl

end Run

end StackScript
