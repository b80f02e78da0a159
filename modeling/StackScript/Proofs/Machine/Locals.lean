import StackScript.Proofs.Machine.Leftovers

/-!
The locals of a function at work. If the functions at work lie in layers, a step changes no slot
below the callee of the innermost one, and none of its locals but one that the step sets
(`Machine.Layered.keeps`). So a local that was not set since the function was called is unset,
whatever its slot held before, and reading it fails (`Machine.Layered.unset`).
-/

set_option autoImplicit false
set_option relaxedAutoImplicit false

namespace StackScript

open Instruction (size encodeAll)

namespace Machine

/-- The next instruction sets the slot, as a local of the function at work. -/
def Sets (machine : Machine) (slot : Nat) : Prop :=
  ∃ index, Loaded machine.frame.routine.code machine.frame.ip [⟨.setLocal, [index]⟩] ∧
    slot = machine.frame.base + index

/-- The slots below the callee of the function at work are left alone. So are its locals, but for
one that is set, unless the function came back. -/
structure Keeps (before after : Machine) : Prop where
  callers (slot : Nat) : slot + 1 < before.frame.base → after.stack[slot]? = before.stack[slot]?
  locals (slot : Nat) : before.callers.size ≤ after.callers.size → slot < before.frame.ceiling →
    ¬before.Sets slot → after.stack[slot]? = before.stack[slot]?

variable {machine before after : Machine} {below locals lower : List (Option Value)}
  {count more : Nat}

theorem Keeps.of_locals (h : ∀ slot < before.frame.ceiling, ¬before.Sets slot →
    after.stack[slot]? = before.stack[slot]?) : before.Keeps after := by
  refine ⟨fun slot hslot ↦ h slot ?_ ?_, fun slot _ ↦ h slot⟩
  · unfold Frame.ceiling
    omega
  · rintro ⟨index, -, rfl⟩
    omega

theorem Keeps.of_returned (hcallers : before.callers = after.callers.push after.frame)
    (h : ∀ slot, slot + 1 < before.frame.base → after.stack[slot]? = before.stack[slot]?) :
    before.Keeps after := by
  refine ⟨h, fun slot hsize ↦ ?_⟩
  rw [hcallers, Array.size_push] at hsize
  omega

/-- The same lower cells show before and after. -/
theorem Stacked.getElem?_eq (h : before.Stacked lower count) (hafter : after.Stacked lower more)
    {slot : Nat} (hslot : slot < lower.length) : after.stack[slot]? = before.stack[slot]? := by
  obtain ⟨_, _, hshows, _⟩ := h
  obtain ⟨_, _, hagain, _⟩ := hafter
  rw [hshows.left.getElem? hslot, hagain.left.getElem? hslot]

end Machine

/-! ### Operations -/

namespace Run

open Machine

variable {machine after : Machine} {lower : List (Option Value)} {count : Nat}

theorem getElem?_of_push {value : Value} (h : push value machine = .ok () after) {slot : Nat}
    (hslot : slot ≠ machine.sp) : after.stack[slot]? = machine.stack[slot]? := by
  rw [push, getSp_bind, check_apply] at h
  split at h
  · cases h
  · obtain ⟨_, middle, hwrite, hset⟩ := bind_eq_ok_iff.mp h
    cases hset
    rw [getElem?_of_writeSlot hwrite, if_neg hslot.symm]

theorem getElem?_of_callClosure {label : Label} {routine : Routine} {free : List Value}
    (h : callClosure label routine free count machine = .ok () after) {slot : Nat}
    (hslot : slot < machine.sp) : after.stack[slot]? = machine.stack[slot]? := by
  obtain ⟨cleared, hclear, rfl⟩ := cleared_of_callClosure h
  rw [getElem?_of_clearSlots hclear, if_neg (by omega)]

theorem getElem?_of_returnFromCall {value : Value}
    (h : returnFromCall value machine = .ok () after) {slot : Nat}
    (hslot : slot + 1 < machine.frame.base) : after.stack[slot]? = machine.stack[slot]? := by
  rw [returnFromCall_eq] at h
  split at h
  · cases h
  · split at h
    · cases h
    · next hbase => exact getElem?_of_push h (by dsimp only; omega)

theorem getElem?_of_call {taken : Nat} (hstacked : machine.Stacked lower (count + (taken + 1)))
    (h : call taken machine = .ok () after) {slot : Nat} (hslot : slot < lower.length) :
    after.stack[slot]? = machine.stack[slot]? := by
  have hsp : slot < machine.sp := by
    obtain ⟨_, _, _, hsp⟩ := hstacked
    omega
  rw [call, getSp_bind, check_apply] at h
  split at h
  · cases h
  obtain ⟨content, middle, hread, hrest⟩ := bind_eq_ok_iff.mp h
  obtain rfl : middle = machine := by
    unfold readSlot at hread
    split at hread <;> cases hread
    rfl
  split at hrest
  · cases hrest
  · exact getElem?_of_callClosure hrest hsp
  · have hcount : count + (taken + 1) = count + 1 + taken := by omega
    have htrades := trades_callBuiltin (hcount ▸ hstacked) ‹_›
    exact hstacked.getElem?_eq (Ends.at_ok htrades hrest).2.2 hslot
  · cases hrest

theorem keeps_of_returnFromCall {middle : Machine} {value : Value}
    (hbase : middle.frame.base = machine.frame.base) (hcallers : middle.callers = machine.callers)
    (hsame : ∀ slot < machine.frame.base, middle.stack[slot]? = machine.stack[slot]?)
    (h : returnFromCall value middle = .ok () after) : machine.Keeps after := by
  refine .of_returned (hcallers.symm.trans (callers_of_returnFromCall h).1) fun slot hslot ↦ ?_
  rw [getElem?_of_returnFromCall h (hbase ▸ hslot), hsame slot (Nat.lt_of_succ_lt hslot)]

theorem keeps_of_retains {below locals : List (Option Value)} {instruction : Instruction} {more : Nat}
    (hloaded : Loaded machine.frame.routine.code machine.frame.ip [instruction])
    (hbase : machine.frame.base = below.length)
    (hceiling : machine.frame.ceiling = (below ++ locals).length)
    (hstacked : machine.Stacked (below ++ locals) count)
    (h : after.Retains below locals instruction more) : machine.Keeps after := by
  obtain ⟨others, hlength, hothers, _, _, hafter, _⟩ := h
  obtain ⟨_, _, hbefore, _⟩ := hstacked
  refine .of_locals fun slot hslot hsets ↦ ?_
  rw [hceiling] at hslot
  rw [hbefore.left.getElem? hslot, hafter.left.getElem? (by simpa [hlength] using hslot)]
  rcases Nat.lt_or_ge slot below.length with hlow | hhigh
  · rw [List.getElem?_append_left hlow, List.getElem?_append_left hlow]
  · obtain ⟨index, rfl⟩ := Nat.exists_eq_add_of_le hhigh
    rw [List.getElem?_append_right hhigh, List.getElem?_append_right hhigh, Nat.add_sub_cancel_left]
    refine hothers index ?_
    rintro rfl
    exact hsets ⟨index, hloaded, by rw [hbase]⟩

/-- Only an instruction that sets a local changes one. -/
theorem keeps_of_perform {below locals : List (Option Value)} {instruction : Instruction}
    {constants : Array Value} {limits : Limits}
    (hloaded : Loaded machine.frame.routine.code machine.frame.ip [instruction])
    (hfits : instruction.Fits) (hvalid : instruction.Valid constants limits)
    (hbase : machine.frame.base = below.length) (hlocals : locals.length = limits.locals)
    (hceiling : machine.frame.ceiling = (below ++ locals).length)
    (hstacked : machine.Stacked (below ++ locals) (count + instruction.takes))
    (h : perform instruction (machine.advance instruction.length) = .ok .running after) :
    machine.Keeps after := by
  have hadvanced : (machine.advance instruction.length).Stacked (below ++ locals)
      (count + instruction.takes) := hstacked
  have hadvancedBase : (machine.advance instruction.length).frame.base = below.length := hbase
  have hceilingLe : machine.frame.base ≤ (below ++ locals).length :=
    hceiling ▸ Nat.le_add_right _ _
  obtain ⟨opcode, operands⟩ := instruction
  cases opcode
  case call =>
    obtain ⟨taken, rfl, _⟩ := hfits.eq_single rfl
    obtain ⟨_, middle, hcall, hend⟩ := bind_eq_ok_iff.mp h
    cases hend
    exact .of_locals fun slot hslot _ ↦ getElem?_of_call hadvanced hcall (hceiling ▸ hslot)
  case jump =>
    obtain ⟨target, rfl, _⟩ := hfits.eq_single rfl
    cases h
    exact .of_locals fun _ _ _ ↦ rfl
  case jumpNotTruthy =>
    obtain ⟨target, rfl, _⟩ := hfits.eq_single rfl
    obtain ⟨_, _, hjump, hend⟩ := bind_eq_ok_iff.mp h
    cases hend
    obtain ⟨value, popped, hpop, hrest⟩ := bind_eq_ok_iff.mp hjump
    have hafter := (Ends.at_ok (trades_pop hadvanced) hpop).2.2
    refine .of_locals fun slot hslot _ ↦ ?_
    have hpopped := hstacked.getElem?_eq hafter (hceiling ▸ hslot)
    split at hrest <;> cases hrest <;> exact hpopped
  case returnValue =>
    obtain rfl := hfits.eq_nil rfl
    obtain ⟨value, popped, hpop, hreturn⟩ := bind_eq_ok_iff.mp h
    obtain ⟨hframe, hcallers, hafter⟩ := Ends.at_ok (trades_pop hadvanced) hpop
    refine keeps_of_returnFromCall (by rw [hframe]; rfl) hcallers (fun slot hslot ↦ ?_)
      (returnFromCall_of_returnWith hreturn)
    exact hstacked.getElem?_eq hafter (Nat.lt_of_lt_of_le hslot hceilingLe)
  case ret =>
    obtain rfl := hfits.eq_nil rfl
    have hback : returnFromCall .null (machine.advance 1) = .ok () after :=
      returnFromCall_of_returnWith h
    have hsame : (machine.advance 1).frame.base = machine.frame.base := rfl
    exact keeps_of_returnFromCall hsame rfl (fun _ _ ↦ rfl) hback
  all_goals
    have htrades := trades_perform hfits hvalid rfl rfl (by simp) hadvancedBase hlocals hadvanced
    exact keeps_of_retains hloaded hbase hceiling hstacked (Ends.at_ok htrades h).2.2.2

/-- A local that is unset cannot be read. -/
theorem step_getLocal {index : Nat}
    (hloaded : Loaded machine.frame.routine.code machine.frame.ip [⟨.getLocal, [index]⟩])
    (hfits : index < 256) (hunset : machine.stack[machine.frame.base + index]? = some none)
    (hsize : machine.stack.size = stackSize) :
    ∃ after, step machine = .error (.uninitializedLocal index) after := by
  have hbound := (Array.getElem?_eq_some_iff.mp hunset).1
  have hadvanced : (machine.advance 2).stack[(machine.advance 2).frame.base + index]? =
      some none := hunset
  have hread : loadLocal index (machine.advance 2) =
      .error (.uninitializedLocal index) (machine.advance 2) :=
    loadLocal_of_getElem? (hsize ▸ hbound) hadvanced
  refine ⟨machine.advance 2, ?_⟩
  rw [step_eq_perform hloaded (.cons hfits .nil)]
  exact bind_of_error hread

end Run

/-! ### Steps -/

namespace Machine

variable {constants : Array Value} {globals longest depth index : Nat} {bottom : Array Frame}
  {floor : List (Option Value)} {machine middle after entered later : Machine}

theorem Layered.keeps (hsound : machine.Sound constants globals longest)
    (h : machine.Layered bottom floor) (hstep : Run.step machine = .ok .running after) :
    machine.Keeps after := by
  obtain ⟨below, count, _, hcounts, locals, hlocals, hstacked⟩ := h
  rcases hsound.frame.counted with hend | ⟨instruction, hloaded, hfits, hvalid, hdepths⟩
  · rw [Run.step_at_end hend] at hstep
    split at hstep
    · cases hstep
    · obtain ⟨_, _, hback, hgone⟩ := bind_eq_ok_iff.mp hstep
      cases hgone
      exact Run.keeps_of_returnFromCall rfl rfl (fun _ _ ↦ rfl) hback
  obtain ⟨left, rfl⟩ : ∃ left, count = left + instruction.takes := by
    obtain ⟨numbering, hnumbered⟩ := hcounts.numbered
    obtain ⟨_, hdepth⟩ := hdepths _ hnumbered
    have htakes := hdepth.takes
    rw [hcounts.count hnumbered] at htakes
    exact ⟨count - instruction.takes, (Nat.sub_add_cancel htakes).symm⟩
  have hceiling : machine.frame.ceiling = (below ++ locals).length := by
    rw [List.length_append, ← hcounts.base, hlocals]
    rfl
  rw [Run.step_eq_perform hloaded hfits] at hstep
  exact Run.keeps_of_perform hloaded hfits hvalid hcounts.base hlocals hceiling hstacked hstep

theorem Layered.size_stack (h : machine.Layered bottom floor) : machine.stack.size = stackSize := by
  obtain ⟨_, _, _, _, _, _, _, _, hshows, _⟩ := h
  exact hshows.size

/-- A function lies above the locals of all that wait for it. -/
theorem InLayout.ceiling_lt (h : machine.InLayout) {i j : Nat} {caller frame : Frame} (hij : i < j)
    (hcaller : machine.frames[i]? = some caller) (hframe : machine.frames[j]? = some frame) :
    caller.ceiling < frame.base := by
  induction j generalizing frame with
  | zero => cases hij
  | succ j ih =>
    obtain ⟨between, hbetween⟩ : ∃ between, machine.frames[j]? = some between :=
      ⟨_, Array.getElem?_eq_getElem
        (Nat.lt_of_succ_lt (Array.getElem?_eq_some_iff.mp hframe).choose)⟩
    have hnext := (h.calls j between frame hbetween hframe).base
    rcases Nat.lt_or_eq_of_le (Nat.le_of_lt_succ hij) with hless | rfl
    · have hlower := ih hless hbetween
      omega
    · rw [hcaller] at hbetween
      cases hbetween
      exact hnext

/-- Steps that lead from the first machine to the second, with always at least so many callers, of
which none sets the local of the function that has just so many. -/
inductive NeverSets (depth index : Nat) : Machine → Machine → Prop
  | here (machine : Machine) : NeverSets depth index machine machine
  | next {machine middle after : Machine} (hstep : Run.step machine = .ok .running middle)
    (hdepth : depth ≤ middle.callers.size)
    (hkeeps : machine.callers.size = depth →
      ¬Loaded machine.frame.routine.code machine.frame.ip [⟨.setLocal, [index]⟩])
    (hrest : NeverSets depth index middle after) : NeverSets depth index machine after

theorem NeverSets.reaches (h : NeverSets depth index machine later) :
    ∃ count, machine.Reaches count later := by
  induction h with
  | here _ => exact ⟨0, .here _⟩
  | next hstep _ _ _ ih =>
    obtain ⟨count, hreaches⟩ := ih
    exact ⟨count + 1, .next hstep hreaches⟩

/-- In the run of the first machine the second one is about to read a local, which is no parameter
and was not set since the function at work was called. -/
inductive ReadsUnset (start : Machine) (index : Nat) (machine : Machine) : Prop
  | intro {steps : Nat} {before entered : Machine} (hreaches : start.Reaches steps before)
    (hcall : Run.step before = .ok .running entered)
    (hdeeper : before.callers.size < entered.callers.size)
    (hnever : NeverSets entered.callers.size index entered machine)
    (hback : machine.callers.size = entered.callers.size)
    (hloaded : Loaded machine.frame.routine.code machine.frame.ip [⟨.getLocal, [index]⟩])
    (hfits : index < 256) (hparameters : machine.frame.routine.parameters ≤ index)

theorem ReadsUnset.reaches {start : Machine} (h : start.ReadsUnset index machine) :
    ∃ count, start.Reaches count machine := by
  obtain ⟨hbefore, hcall, _, hnever, _⟩ := h
  obtain ⟨count, hreaches⟩ := hnever.reaches
  exact ⟨_, hbefore.trans (.next hcall hreaches)⟩

section Runs

variable (hpool : ValidPool constants globals) (hleveled : LeveledPool constants)
  (hlongest : CodeWithin constants longest)

include hpool hleveled hlongest

/-- A local that is not set stays as it is while its function is at work. -/
theorem NeverSets.kept (h : NeverSets depth index machine later)
    (hsound : machine.Sound constants globals longest) (hlayered : machine.Layered #[] [])
    (hdepth : depth ≤ machine.callers.size) {frame : Frame}
    (hframe : machine.frames[depth]? = some frame) :
    (∃ ip, later.frames[depth]? = some { frame with ip := ip }) ∧
      (index < frame.routine.locals →
        later.stack[frame.base + index]? = machine.stack[frame.base + index]?) := by
  induction h generalizing frame with
  | here _ => exact ⟨⟨frame.ip, hframe⟩, fun _ ↦ rfl⟩
  | @next machine middle later hstep hmiddle hkeeps _ ih =>
    have hturned := hsound.turned hstep
    have hslots := hlayered.keeps hsound hstep
    have hnext := hsound.next hpool hlongest hstep
    have hlayers : middle.Layered #[] [] :=
      hlayered.reaches hpool hleveled hlongest hsound (.next hstep (.here _))
    rcases Nat.lt_or_eq_of_le hdepth with hless | rfl
    · have hbelow := hlayered.inLayout.ceiling_lt hless hframe machine.getElem?_frames_size
      unfold Frame.ceiling at hbelow
      obtain ⟨hlater, hsame⟩ := ih hnext hlayers hmiddle ((hturned.kept hless).trans hframe)
      exact ⟨hlater, fun hindex ↦ (hsame hindex).trans (hslots.callers _ (by omega))⟩
    · rw [machine.getElem?_frames_size] at hframe
      obtain rfl := Option.some.inj hframe
      obtain ⟨ip, _, hmoved⟩ := hturned.moves hmiddle
      obtain ⟨hlater, hsame⟩ := ih hnext hlayers hmiddle hmoved
      refine ⟨hlater, fun hindex ↦ (hsame hindex).trans
        (hslots.locals _ hmiddle (Nat.add_lt_add_left hindex _) ?_)⟩
      rintro ⟨other, hloaded, hslot⟩
      obtain rfl := Nat.add_left_cancel hslot
      exact hkeeps rfl hloaded

/-- A local that was not set since its function was called cannot be read. -/
theorem Layered.unset {start : Machine} (hstart : start.Sound constants globals longest)
    (h : start.Layered #[] []) (hreads : start.ReadsUnset index later) :
    ∃ after, Run.step later = .error (.uninitializedLocal index) after := by
  obtain ⟨hbefore, hcall, hdeeper, hnever, hback, hloaded, hfits, hparameters⟩ := hreads
  have hsound := hstart.reaches hpool hlongest hbefore
  have hentered := hsound.next hpool hlongest hcall
  have hlayered := h.reaches hpool hleveled hlongest hstart (hbefore.trans (.next hcall (.here _)))
  obtain ⟨count, hreaches⟩ := hnever.reaches
  have hlater := hentered.reaches hpool hlongest hreaches
  have hlaterLayered := hlayered.reaches hpool hleveled hlongest hentered hreaches
  have hindex : index < later.frame.routine.locals := by
    obtain ⟨done, rest, _, _, hwell⟩ := hlater.frame.at_loaded hloaded (.cons hfits .nil)
    exact hwell.valid _ (List.mem_append_right done List.mem_cons_self)
  -- the function at work is the one that began then
  obtain ⟨⟨ip, hframe⟩, hsame⟩ := hnever.kept hpool hleveled hlongest hentered hlayered
    (Nat.le_refl _) (Machine.getElem?_frames_size _)
  rw [← hback, later.getElem?_frames_size] at hframe
  have hlast := Option.some.inj hframe
  rw [hlast] at hindex hparameters
  have hunset := (hsame hindex).trans
    (((hsound.turned hcall).begun hdeeper).unset index hparameters hindex)
  refine Run.step_getLocal hloaded hfits ?_ hlaterLayered.size_stack
  rw [hlast]
  exact hunset

end Runs

end Machine

end StackScript
