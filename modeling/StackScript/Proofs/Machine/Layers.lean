import StackScript.Proofs.Machine.Halting
import StackScript.Proofs.Machine.Invariant
import StackScript.Proofs.Machine.Operands
import StackScript.Proofs.Program.Levels

/-!
The functions at work lie in layers on the stack. A layer consists of the callee, the locals of the
function and as many operands as its code counts at the place where the function stands; the next
layer begins right above (`Frame.Rests`). A step changes the topmost layer, adds one or takes one
away, and never fails for want of operands (`Machine.Layered.step`). What is below the lowest layer
one looks at does not matter for this, so it tells both how a whole program runs and what a call
leaves behind.
-/

set_option autoImplicit false
set_option relaxedAutoImplicit false

namespace StackScript

open Instruction (size encodeAll)

/-! ### Layers -/

/-- The locals of the frame begin above the cells, and at its place every numbering of its code
counts so many operands. -/
structure Frame.Counts (frame : Frame) (below : List (Option Value)) (count : Nat) : Prop where
  base : frame.base = below.length
  numbered : ∃ depth, frame.routine.Numbered depth
  count {depth : Nat → Nat} : frame.routine.Numbered depth → depth frame.ip = count

/-- The cells below the locals of a frame: those of its callers, down to the `bottom` of them, which
all wait for the value of a call, and its own callee. -/
inductive Frame.Rests (bottom : Array Frame) (floor : List (Option Value)) :
    Array Frame → Frame → List (Option Value) → Prop
  | bottom (frame : Frame) : Rests bottom floor bottom frame floor
  | called {callers : Array Frame} {caller : Frame} {below locals : List (Option Value)}
    {operands : List Value} (frame : Frame) (hrests : Rests bottom floor callers caller below)
    (hcounts : caller.Counts below (operands.length + 1))
    (hlocals : locals.length = caller.routine.locals) :
    Rests bottom floor (callers.push caller) frame
      (below ++ locals ++ operands.map some ++ [some frame.closure])

theorem Frame.Rests.withIp {bottom callers : Array Frame} {floor cells : List (Option Value)}
    {frame : Frame} (h : frame.Rests bottom floor callers cells) (ip : Nat) :
    Rests bottom floor callers { frame with ip := ip } cells := by
  cases h with
  | bottom => exact .bottom _
  | called _ hrests hcounts hlocals => exact .called { frame with ip := ip } hrests hcounts hlocals

theorem Frame.Rests.size_le {bottom callers : Array Frame} {floor cells : List (Option Value)}
    {frame : Frame} (h : frame.Rests bottom floor callers cells) : bottom.size ≤ callers.size := by
  induction h with
  | bottom => exact Nat.le_refl _
  | called _ _ _ _ ih =>
    rw [Array.size_push]
    exact Nat.le_succ_of_le ih

/-- Where a function stands, its next instruction is the one that its numberings count. -/
theorem Frame.Sound.counted {constants : Array Value} {globals longest : Nat} {inFunction : Bool}
    {frame : Frame} (h : frame.Sound constants globals longest inFunction) :
    frame.ip = frame.routine.code.size ∨ ∃ instruction : Instruction,
      Loaded frame.routine.code frame.ip [instruction] ∧ instruction.Fits ∧
      instruction.Valid constants ⟨globals, frame.routine.locals, frame.free.length, inFunction⟩ ∧
      ∀ depth, frame.routine.Numbered depth →
        ∃ stop, instruction.Depth True depth stop frame.ip := by
  obtain ⟨done, rest, hcode, hip, hwell⟩ := h.code
  cases rest with
  | nil =>
    left
    rw [hip, ← Array.length_toList, hcode]
    simp
  | cons instruction rest =>
    right
    have hmem : instruction ∈ done ++ instruction :: rest := by simp
    refine ⟨instruction, ⟨encodeAll done, encodeAll rest, by simp [hcode], by simp [hip]⟩,
      hwell.fits _ hmem, hwell.valid _ hmem, fun depth hnumbered ↦ ?_⟩
    obtain ⟨code, hsame, hfits, hdepths⟩ := hnumbered.code
    obtain rfl := Instruction.eq_of_encodeAll_eq hfits hwell.fits (hsame.symm.trans hcode)
    have hhere := (Instruction.depths_append.mp hdepths).2
    rw [Nat.zero_add, ← hip] at hhere
    exact ⟨_, hhere.1⟩

namespace Machine

/-- The function at work has the topmost layer, its callers those below. -/
def Layered (bottom : Array Frame) (floor : List (Option Value)) (machine : Machine) : Prop :=
  ∃ below count, machine.frame.Rests bottom floor machine.callers below ∧
    machine.frame.Counts below count ∧ machine.Works below machine.frame.routine.locals count

/-- The lowest layer is taken away: its caller goes on, with a value in the place of the callee. -/
structure Emptied (bottom : Array Frame) (floor : List (Option Value)) (machine : Machine) :
    Prop where
  callers : bottom = machine.callers.push machine.frame
  sp : machine.sp = floor.length
  shows : Shows machine.stack floor.dropLast

/-- What becomes of the layers in a step: another one may be added, whose function begins with all
below it as it was, or the topmost one changes or is taken away. -/
inductive Shifted (bottom : Array Frame) (floor : List (Option Value)) (before after : Machine) : Prop
  | within (hlayered : after.Layered bottom floor)
    (hcallers : after.callers.size ≤ before.callers.size)
  | added (hlayered : after.Layered bottom floor)
    (hkept : ∀ slot < after.frame.base, after.stack[slot]? = before.stack[slot]?)
  | emptied (hemptied : after.Emptied bottom floor)

end Machine

/-! ### Steps -/

namespace Run

open Machine

variable {bottom : Array Frame} {floor below : List (Option Value)} {before machine : Machine}
  {count : Nat}

/-- What the last action of a step comes to, unless it ends the program. -/
abbrev Shifts (bottom : Array Frame) (floor : List (Option Value)) (before : Machine)
    (action : Run Progress) (machine : Machine) : Prop :=
  Ends action machine
    (fun progress after ↦ progress = .running → before.Shifted bottom floor after)
    fun error _ ↦ error ≠ .stackUnderflow

/-- The function goes on at another place, with as many operands as are counted there. -/
theorem shifted_onward {after : Machine} {ip more : Nat}
    (hbefore : machine.callers = before.callers)
    (hrests : machine.frame.Rests bottom floor machine.callers below)
    (hcounts : machine.frame.Counts below count) (hcallers : after.callers = machine.callers)
    (hframe : after.frame = { machine.frame with ip := ip })
    (hcount : ∀ depth, machine.frame.routine.Numbered depth → depth ip = more)
    (hworks : after.Works below machine.frame.routine.locals more) :
    before.Shifted bottom floor after := by
  refine .within ⟨below, more, ?_, ?_, ?_⟩ (Nat.le_of_eq ?_)
  · rw [hframe, hcallers]
    exact hrests.withIp ip
  · rw [hframe]
    exact ⟨hcounts.base, hcounts.numbered, fun hnumbered ↦ hcount _ hnumbered⟩
  · rw [hframe]
    exact hworks
  · rw [hcallers, hbefore]

/-- A return takes the topmost layer away. -/
theorem shifts_returnFromCall {callers : Array Frame} {frame : Frame}
    (hbefore : machine.callers = before.callers) (hcallers : machine.callers = callers)
    (hbase : machine.frame.base = below.length)
    (hrests : frame.Rests bottom floor callers below) (hshows : Shows machine.stack below)
    (hcalled : callers ≠ #[]) (hfloor : bottom ≠ #[] → floor ≠ []) (value : Value) :
    Shifts bottom floor before (goOn (returnFromCall value)) machine := by
  have hroom := hshows.length_le
  cases hrests with
  | bottom =>
    obtain ⟨cells, callee, rfl⟩ : ∃ cells callee, floor = cells ++ [callee] :=
      ⟨_, _, (List.dropLast_concat_getLast (hfloor hcalled)).symm⟩
    obtain ⟨rest, caller, rfl⟩ :=
      Array.eq_push_of_size_ne_zero (mt Array.eq_empty_of_size_eq_zero hcalled)
    rw [List.length_append, List.length_singleton] at hbase hroom
    obtain ⟨stack, hreturn, hreturned⟩ := returnFromCall_of_shows hshows.left hcallers hbase hroom
      value
    refine .of_ok (bind_of_ok hreturn) fun _ ↦ .emptied ⟨rfl, by simp, ?_⟩
    simpa using hreturned.left
  | @called callers caller lower locals operands _ hrests hcounts hlocals =>
    rw [List.length_append, List.length_singleton] at hbase hroom
    obtain ⟨stack, hreturn, hreturned⟩ := returnFromCall_of_shows hshows.left hcallers hbase hroom
      value
    refine .of_ok (bind_of_ok hreturn) fun _ ↦ .within ⟨lower, operands.length + 1, hrests, hcounts,
      locals, hlocals, operands ++ [value], by simp, by simpa using hreturned, ?_⟩ ?_
    · simp only [List.length_append, List.length_map]
      omega
    · rw [← hbefore, hcallers, Array.size_push]
      exact Nat.le_succ _

/-- A return from the top-level code ends the program. -/
theorem shifts_returnWith (hbefore : machine.callers = before.callers)
    (hbase : machine.frame.base = below.length)
    (hrests : machine.frame.Rests bottom floor machine.callers below)
    (hshows : Shows machine.stack below) (hfloor : bottom ≠ #[] → floor ≠ []) (value : Value) :
    Shifts bottom floor before (returnWith value) machine := by
  have htop : atTopLevel machine = .ok machine.callers.isEmpty machine := rfl
  refine Ends.of_eq (bind_of_ok htop) ?_
  cases hempty : machine.callers.isEmpty with
  | true => rintro ⟨⟩
  | false =>
    refine shifts_returnFromCall hbefore rfl hbase hrests hshows ?_ hfloor value
    rintro hnone
    rw [hnone] at hempty
    cases hempty

/-- A call of a function adds a layer. -/
theorem shifts_callClosure {label : Label} {routine : Routine} {free : List Value}
    {locals cells : List (Option Value)} {operands arguments : List Value} {draft : Draft}
    {body : List Stmt} (hbefore : machine.stack = before.stack) (hbody : routine.HasBody draft body)
    (hrests : machine.frame.Rests bottom floor machine.callers below)
    (hcounts : machine.frame.Counts below (operands.length + 1))
    (hlocals : locals.length = machine.frame.routine.locals)
    (hcells : cells = below ++ locals ++ operands.map some ++
      [some (Value.closure label routine free)])
    (hshows : Shows machine.stack (cells ++ arguments.map some))
    (hsp : machine.sp = cells.length + arguments.length) :
    Shifts bottom floor before (goOn (callClosure label routine free arguments.length)) machine := by
  have hfails : ∀ {error after}, error ≠ .stackUnderflow →
      callClosure label routine free arguments.length machine = .error error after →
      Shifts bottom floor before (goOn (callClosure label routine free arguments.length)) machine :=
    fun herror hcall ↦ .of_error (bind_of_error hcall) herror
  have hchecks := callClosure_eq machine label routine free arguments.length
  by_cases hcount : arguments.length = routine.parameters
  swap
  · exact hfails (by simp) (hchecks.trans (if_pos hcount))
  replace hchecks := hchecks.trans (if_neg (not_not_intro hcount))
  by_cases hdepth : frameLimit ≤ machine.callers.size + 1
  · exact hfails (by simp) (hchecks.trans (if_pos hdepth))
  replace hchecks := hchecks.trans ((if_neg hdepth).trans (if_neg (by omega)))
  have hparameters := hbody.parameters
  have hmax : max routine.locals arguments.length = routine.locals := by omega
  rw [hsp, Nat.add_sub_cancel, hmax] at hchecks
  by_cases hroom : stackSize < cells.length + routine.locals
  · exact hfails (by simp) (hchecks.trans (if_pos hroom))
  obtain ⟨stack, hcall, hcalled⟩ := callClosure_of_shows label free hshows hsp hcount hparameters
    (Nat.lt_of_not_le hdepth) (Nat.le_of_not_lt hroom)
  obtain ⟨depth, hnumbered, _⟩ := hbody.numbered (Stmt.boundary_zero body draft)
  have hslots : (arguments.map some ++
      List.replicate (routine.locals - arguments.length) none).length = routine.locals := by
    rw [List.length_append, List.length_map, List.length_replicate]
    omega
  refine .of_ok (bind_of_ok hcall) fun _ ↦ .added ⟨cells, 0, ?_,
    ⟨rfl, ⟨depth, hnumbered⟩, fun hother ↦ hother.enter⟩, _, hslots, [], rfl, ?_, ?_⟩ ?_
  · rw [hcells]
    exact .called _ hrests hcounts hlocals
  · simpa using hcalled
  · rw [List.length_append, hslots]
    rfl
  · intro slot hslot
    rw [← hbefore]
    exact (hcalled.left.getElem? hslot).trans (hshows.left.getElem? hslot).symm

/-- A call with the callee and the arguments among the operands. -/
theorem shifts_call {taken : Nat} (hcallers : machine.callers = before.callers)
    (hstack : machine.stack = before.stack)
    (hheld : ∀ (slot : Nat) (label : Label) (routine : Routine) (free : List Value),
      machine.stack[slot]? = some (some (.closure label routine free)) →
      ∃ draft body, routine.HasBody draft body)
    (hrests : machine.frame.Rests bottom floor machine.callers below)
    (hcounts : machine.frame.Counts below (count + 1))
    (hworks : machine.Works below machine.frame.routine.locals (count + (taken + 1))) :
    Shifts bottom floor before (goOn (call taken)) machine := by
  obtain ⟨locals, hlocals, hstacked⟩ := hworks
  obtain ⟨all, hlength, hshows, hsp⟩ := id hstacked
  obtain ⟨operands, callee, arguments, rfl, rfl, rfl⟩ : ∃ operands callee arguments,
      all = operands ++ callee :: arguments ∧ operands.length = count ∧
      arguments.length = taken := by
    have hlt : count < all.length := by omega
    refine ⟨all.take count, all[count], all.drop (count + 1), ?_, ?_, ?_⟩
    · rw [← List.drop_eq_getElem_cons hlt, List.take_append_drop]
    · simp
      omega
    · simp
      omega
  rw [List.map_append, List.map_cons, ← List.append_assoc] at hshows
  have hcall : call arguments.length machine = callValue callee arguments.length machine := by
    refine call_of_shows hshows ?_
    rw [hsp]
    simp
    omega
  have hgoes : goOn (call arguments.length) machine =
      goOn (callValue callee arguments.length) machine := by
    simp only [goOn, bind, EStateM.bind, hcall]
  refine Ends.of_eq hgoes ?_
  cases callee with
  | closure label routine free =>
    obtain ⟨draft, body, hbody⟩ := hheld _ label routine free hshows.getElem?_length
    refine shifts_callClosure hstack hbody hrests hcounts hlocals rfl (by simpa using hshows) ?_
    rw [hsp]
    simp
    omega
  | builtin builtin =>
    have hbuiltin : Trades (callBuiltin builtin arguments.length) machine _ :=
      trades_callBuiltin (by simpa [Nat.add_assoc, Nat.add_comm 1] using hstacked) builtin
    refine Ends.mono hbuiltin.works.goOn ?_ fun _ _ hfailed ↦ hfailed
    rintro _ after ⟨hframe, hkept, _, hworks⟩ _
    rw [hlocals] at hworks
    exact shifted_onward hcallers hrests hcounts hkept hframe (fun _ ↦ hcounts.count) hworks
  | _ => exact .of_error (bind_of_error rfl) (by simp)

/-- A jump that takes its condition, if it has one. -/
theorem shifts_jumpNotTruthy {target : Nat} (hbefore : machine.callers = before.callers)
    (hrests : machine.frame.Rests bottom floor machine.callers below)
    (hcounts : machine.frame.Counts below count)
    (htarget : ∀ depth, machine.frame.routine.Numbered depth → depth target = count)
    (hworks : machine.Works below machine.frame.routine.locals (count + 1)) :
    Shifts bottom floor before (goOn do if !(← pop).isTruthy then setIp target) machine := by
  obtain ⟨locals, hlocals, hstacked⟩ := hworks
  have hpop := trades_pop hstacked
  refine Ends.of_eq (by rw [goOn, bind_assoc]) (Ends.bind hpop ?_)
  rintro value after ⟨hframe, hcallers, hafter⟩
  have hworks : after.Works below machine.frame.routine.locals count := ⟨locals, hlocals, hafter⟩
  cases value.isTruthy with
  | true =>
    exact fun _ ↦
      shifted_onward hbefore hrests hcounts hcallers hframe (fun _ ↦ hcounts.count) hworks
  | false =>
    refine fun _ ↦ shifted_onward hbefore hrests hcounts hcallers ?_ htarget hworks
    rw [← hframe]

end Run

open Run

/-- A step from a machine that is in order and whose functions at work lie in layers. -/
theorem Machine.Layered.step {constants : Array Value} {globals longest : Nat} {bottom : Array Frame}
    {floor : List (Option Value)} {machine : Machine} (hpool : LeveledPool constants)
    (hsound : machine.Sound constants globals longest) (h : machine.Layered bottom floor)
    (hfloor : bottom ≠ #[] → floor ≠ []) : Shifts bottom floor machine step machine := by
  obtain ⟨below, count, hrests, hcounts, hworks⟩ := h
  obtain ⟨numbering, hnumbered⟩ := hcounts.numbered
  have hbelow : Shows machine.stack below := by
    obtain ⟨_, _, _, _, hshows, _⟩ := hworks
    exact hshows.left.left
  rcases hsound.frame.counted with hend | ⟨instruction, hloaded, hfits, hvalid, hdepths⟩
  · have hstep := step_at_end hend
    by_cases htop : machine.callers.isEmpty
    · rw [if_pos htop] at hstep
      exact .of_ok hstep (by rintro ⟨⟩)
    · rw [if_neg htop] at hstep
      refine Ends.of_eq hstep
        (shifts_returnFromCall rfl rfl hcounts.base hrests hbelow ?_ hfloor .null)
      rintro hnone
      exact htop (by rw [hnone]; rfl)
  -- there are as many operands as the instruction takes
  obtain ⟨left, rfl⟩ : ∃ left, count = left + instruction.takes := by
    obtain ⟨_, hdepth⟩ := hdepths _ hnumbered
    have htakes := hdepth.takes
    rw [hcounts.count hnumbered] at htakes
    exact ⟨count - instruction.takes, (Nat.sub_add_cancel htakes).symm⟩
  have honward : instruction.leadsOn → ∀ depth, machine.frame.routine.Numbered depth →
      depth (machine.frame.ip + instruction.length) = left + instruction.leaves := by
    intro hleads depth hnumbered
    obtain ⟨_, hdepth⟩ := hdepths depth hnumbered
    rw [← (hdepth.onward hleads).eq trivial, hcounts.count hnumbered, Nat.add_sub_cancel]
  have htarget : ∀ target, instruction.target? = some target →
      ∀ depth, machine.frame.routine.Numbered depth →
      depth target = left + instruction.leaves := by
    intro target hjump depth hnumbered
    obtain ⟨_, hdepth⟩ := hdepths depth hnumbered
    rw [← (hdepth.target hjump).2.2.eq trivial, hcounts.count hnumbered, Nat.add_sub_cancel]
  have hadvanced : instruction.leadsOn →
      (machine.advance instruction.length).frame.Counts below (left + instruction.leaves) :=
    fun hleads ↦ ⟨hcounts.base, hcounts.numbered, fun hnumbered ↦ honward hleads _ hnumbered⟩
  have hmoved := hrests.withIp (machine.frame.ip + instruction.length)
  unfold Shifts Ends
  rw [step_eq_perform hloaded hfits]
  change Shifts bottom floor machine (perform instruction) (machine.advance instruction.length)
  obtain ⟨opcode, operands⟩ := instruction
  cases opcode
  case call =>
    obtain ⟨taken, rfl, _⟩ := hfits.eq_single rfl
    refine shifts_call rfl rfl ?_ hmoved (hadvanced rfl) hworks
    intro slot label routine free hslot
    cases hsound.holds.onStack slot _ hslot with
    | closure hroutine _ =>
      obtain ⟨entry, other, hentry⟩ := hroutine.entry
      exact hpool entry other routine hentry
  case jump =>
    obtain ⟨target, rfl, _⟩ := hfits.eq_single rfl
    exact .of_ok rfl fun _ ↦
      shifted_onward rfl hrests hcounts rfl rfl (htarget target rfl) hworks
  case jumpNotTruthy =>
    obtain ⟨target, rfl, _⟩ := hfits.eq_single rfl
    exact shifts_jumpNotTruthy rfl hmoved (hadvanced rfl) (htarget target rfl) hworks
  case returnValue =>
    obtain rfl := hfits.eq_nil rfl
    obtain ⟨locals, _, hstacked⟩ := hworks
    have hadvanced : (machine.advance 1).Stacked (below ++ locals) (left + 1) := hstacked
    refine Ends.bind (trades_pop hadvanced) ?_
    rintro value after ⟨hframe, hcallers, _, _, hshows, _⟩
    have hbefore : after.callers = machine.callers := hcallers
    refine shifts_returnWith hbefore ?_ ?_ hshows.left.left hfloor value
    · rw [hframe]
      exact hcounts.base
    · rw [hframe, hcallers]
      exact hmoved
  case ret =>
    obtain rfl := hfits.eq_nil rfl
    have hbefore : (machine.advance 1).callers = machine.callers := rfl
    exact shifts_returnWith hbefore hcounts.base hmoved hbelow hfloor .null
  all_goals
    obtain ⟨locals, hlocals, hstacked⟩ := hworks
    refine Ends.mono (trades_perform hfits hvalid rfl rfl (by simp) hcounts.base hlocals hstacked) ?_
      fun _ _ hfailed ↦ hfailed
    rintro _ after ⟨hframe, hcallers, _, more, hmore, -, hafter⟩ _
    exact shifted_onward rfl hrests hcounts hcallers hframe (honward rfl)
      ⟨more, hmore.trans hlocals, hafter⟩

/-! ### Slots -/

/-- A function that was called begins behind the locals of its caller; in between there are operands
of the caller, and the callee. -/
structure Frame.IsBelow (stack : Array (Option Value)) (caller frame : Frame) : Prop where
  base : caller.base + caller.routine.locals + 1 ≤ frame.base
  callee : stack[frame.base - 1]? = some (some frame.closure)
  operands (slot : Nat) : caller.base + caller.routine.locals ≤ slot → slot + 1 < frame.base →
    ∃ value, stack[slot]? = some (some value)

/-- A slot above all locals and below the callee is set. -/
theorem Frame.isBelow_of_shows {stack : Array (Option Value)} {caller frame : Frame}
    {below locals : List (Option Value)} {operands : List Value}
    (hshows : Shows stack (below ++ locals ++ operands.map some ++ [some frame.closure]))
    (hcaller : caller.base = below.length) (hlocals : locals.length = caller.routine.locals)
    (hbase : frame.base = (below ++ locals ++ operands.map some ++ [some frame.closure]).length) :
    caller.IsBelow stack frame := by
  have hlower : (below ++ locals).length = caller.base + caller.routine.locals := by
    rw [List.length_append, hcaller, hlocals]
  have htop : frame.base =
      caller.base + caller.routine.locals + operands.length + 1 := by
    rw [hbase, List.length_append, List.length_append, hlower]
    simp
  refine ⟨by omega, ?_, fun slot hslot hless ↦ ?_⟩
  · have hlast : frame.base - 1 = (below ++ locals ++ operands.map some).length := by
      rw [hbase, List.length_append, List.length_singleton, Nat.add_sub_cancel]
    rw [hlast]
    exact hshows.getElem?_length
  · obtain ⟨index, rfl⟩ := Nat.exists_eq_add_of_le hslot
    exact hshows.left.getElem?_operand hlower (by omega)

theorem Frame.Rests.isBelow {stack : Array (Option Value)} {callers : Array Frame}
    {frame caller next : Frame} {cells : List (Option Value)} {i : Nat}
    (h : frame.Rests #[] [] callers cells) (hbase : frame.base = cells.length)
    (hshows : Shows stack cells) (hcaller : (callers.push frame)[i]? = some caller)
    (hnext : (callers.push frame)[i + 1]? = some next) : caller.IsBelow stack next := by
  induction h generalizing i with
  | bottom => simp at hnext
  | @called callers waiting below locals operands frame hrests hcounts hlocals ih =>
    have hbound := (Array.getElem?_eq_some_iff.mp hnext).1
    rw [Array.size_push, Array.size_push] at hbound
    rw [Array.getElem?_push, Array.size_push] at hcaller hnext
    rw [if_neg (by omega)] at hcaller
    by_cases hlast : i = callers.size
    -- the last call is the one that the topmost layer is for
    · rw [hlast, Array.getElem?_push_size] at hcaller
      rw [if_pos (by omega)] at hnext
      cases hcaller
      cases hnext
      exact Frame.isBelow_of_shows hshows hcounts.base hlocals hbase
    · rw [if_neg (by omega)] at hnext
      exact ih hcounts.base hshows.left.left.left hcaller hnext

namespace Machine

/-- The functions at work, the outermost first. -/
def frames (machine : Machine) : Array Frame :=
  machine.callers.push machine.frame

/-- Each function lies above its caller. The one at work has its locals, then operands up to the
stack pointer. -/
structure InLayout (machine : Machine) : Prop where
  calls (i : Nat) (caller frame : Frame) : machine.frames[i]? = some caller →
    machine.frames[i + 1]? = some frame → caller.IsBelow machine.stack frame
  operands (slot : Nat) : machine.frame.base + machine.frame.routine.locals ≤ slot →
    slot < machine.sp → ∃ value, machine.stack[slot]? = some (some value)
  locals : machine.frame.base + machine.frame.routine.locals ≤ machine.sp
  sp : machine.sp ≤ stackSize

variable {bottom : Array Frame} {floor : List (Option Value)} {machine : Machine}

theorem Layered.inLayout (h : machine.Layered #[] []) : machine.InLayout := by
  obtain ⟨below, count, hrests, hcounts, locals, hlocals, operands, rfl, hshows, hsp⟩ := h
  have hlower : (below ++ locals).length = machine.frame.base + machine.frame.routine.locals := by
    rw [List.length_append, hcounts.base, hlocals]
  rw [hlower] at hsp
  refine ⟨fun i caller frame ↦ hrests.isBelow hcounts.base hshows.left.left,
    fun slot hslot hless ↦ ?_,
    by omega, ?_⟩
  · obtain ⟨index, rfl⟩ := Nat.exists_eq_add_of_le hslot
    exact hshows.getElem?_operand hlower (by omega)
  · have hroom := hshows.length_le
    rw [List.length_append, hlower, List.length_map] at hroom
    omega

/-- Where its code counts no operands, the stack ends with the locals of the function. -/
theorem Layered.sp_eq (h : machine.Layered bottom floor) {depth : Nat → Nat}
    (hnumbered : machine.frame.routine.Numbered depth) (hzero : depth machine.frame.ip = 0) :
    machine.sp = machine.frame.base + machine.frame.routine.locals := by
  obtain ⟨below, count, _, hcounts, locals, hlocals, _, _, _, hsp⟩ := h
  rw [hsp, ← hcounts.count hnumbered, hzero, List.length_append, hcounts.base, hlocals, Nat.add_zero]

/-- Steps that lead from the first machine to the second, with always at least so many callers. -/
inductive Inside (depth : Nat) : Machine → Machine → Prop
  | here (machine : Machine) : Inside depth machine machine
  | next {machine middle after : Machine} (hstep : Run.step machine = .ok .running middle)
    (hdepth : depth ≤ middle.callers.size) (hrest : Inside depth middle after) :
    Inside depth machine after

/-- The function that was entered came back: its caller is at work again, all below the callee is as
it was before the call, and the stack ends right above the place of the callee. -/
structure CameBack (before entered later : Machine) : Prop where
  callers : entered.callers = later.callers.push later.frame
  sp : later.sp = entered.frame.base
  kept (slot : Nat) : slot + 1 < entered.frame.base → later.stack[slot]? = before.stack[slot]?

/-! ### Runs -/

section Runs

variable {constants : Array Value} {globals longest : Nat} {entered middle last later : Machine}
  (hpool : ValidPool constants globals) (hleveled : LeveledPool constants)
  (hlongest : CodeWithin constants longest)

include hpool hleveled hlongest

/-- What a step that leads on keeps. -/
theorem Layered.next (hsound : machine.Sound constants globals longest)
    (h : machine.Layered bottom floor) (hfloor : bottom ≠ #[] → floor ≠ [])
    (hstep : Run.step machine = .ok .running middle) :
    middle.Sound constants globals longest ∧ machine.Shifted bottom floor middle := by
  have hnext := hsound.step hpool hlongest
  have hshifts := h.step hleveled hsound hfloor
  unfold Run.Shifts Ends at hshifts
  rw [hstep] at hnext hshifts
  exact ⟨hnext.1, hshifts rfl⟩

/-- The lowest layer is not taken away while its callers all wait. -/
theorem Layered.inside (hsound : machine.Sound constants globals longest)
    (h : machine.Layered bottom floor) (hfloor : bottom ≠ #[] → floor ≠ [])
    (hinside : Inside bottom.size machine last) :
    last.Sound constants globals longest ∧ last.Layered bottom floor := by
  induction hinside with
  | here => exact ⟨hsound, h⟩
  | next hstep hdepth _ ih =>
    obtain ⟨hmiddle, hshifted⟩ := h.next hpool hleveled hlongest hsound hfloor hstep
    cases hshifted with
    | within hlayered | added hlayered => exact ih hmiddle hlayered
    | emptied hemptied =>
      have hsize := congrArg Array.size hemptied.callers
      rw [Array.size_push] at hsize
      omega

/-- The functions of a whole program lie in layers after any number of steps. -/
theorem Layered.reaches {count : Nat} (hsound : machine.Sound constants globals longest)
    (h : machine.Layered #[] []) (hreaches : machine.Reaches count last) :
    last.Layered #[] [] := by
  have hinside : Inside (Array.size (#[] : Array Frame)) machine last := by
    clear hsound h
    induction hreaches with
    | here => exact .here _
    | next hstep _ ih => exact .next hstep (Nat.zero_le _) ih
  exact (h.inside hpool hleveled hlongest hsound (fun hne ↦ absurd rfl hne) hinside).2

/-- A function that was called begins a layer, with all below it as it was before the call. -/
theorem Layered.called (hsound : machine.Sound constants globals longest)
    (h : machine.Layered #[] []) (hcall : Run.step machine = .ok .running entered)
    (hdeeper : machine.callers.size < entered.callers.size) :
    entered.Sound constants globals longest ∧ ∃ floor, entered.Layered entered.callers floor ∧
      floor ≠ [] ∧ floor.length = entered.frame.base ∧
      ∀ slot < floor.length, floor[slot]? = machine.stack[slot]? := by
  obtain ⟨hentered, hshifted⟩ :=
    h.next hpool hleveled hlongest hsound (fun hne ↦ absurd rfl hne) hcall
  refine ⟨hentered, ?_⟩
  cases hshifted with
  | within _ hcallers => omega
  | emptied hemptied =>
    have hsize := congrArg Array.size hemptied.callers
    simp at hsize
  | added hlayered hkept =>
    obtain ⟨below, count, hrests, hcounts, hworks⟩ := hlayered
    have hshows : Shows entered.stack below := by
      obtain ⟨_, _, _, _, hshows, _⟩ := hworks
      exact hshows.left.left
    refine ⟨below, ⟨below, count, .bottom _, hcounts, hworks⟩, ?_, hcounts.base.symm, ?_⟩
    · generalize entered.callers = callers at hrests hdeeper
      cases hrests with
      | bottom => simp at hdeeper
      | called => simp
    · intro slot hslot
      rw [← hshows.getElem? hslot]
      exact hkept slot (hcounts.base ▸ hslot)

theorem Layered.returned (hsound : machine.Sound constants globals longest)
    (h : machine.Layered #[] []) (hcall : Run.step machine = .ok .running entered)
    (hdeeper : machine.callers.size < entered.callers.size)
    (hinside : Inside entered.callers.size entered last)
    (hreturn : Run.step last = .ok .running later)
    (hback : later.callers.size < entered.callers.size) : CameBack machine entered later := by
  obtain ⟨hentered, floor, hlayered, hfloor, hbase, hkept⟩ :=
    h.called hpool hleveled hlongest hsound hcall hdeeper
  obtain ⟨hlast, hlastLayered⟩ :=
    hlayered.inside hpool hleveled hlongest hentered (fun _ ↦ hfloor) hinside
  obtain ⟨_, hshifted⟩ :=
    hlastLayered.next hpool hleveled hlongest hlast (fun _ ↦ hfloor) hreturn
  cases hshifted with
  | within hlater | added hlater =>
    obtain ⟨_, _, hrests, _⟩ := hlater
    exact absurd hrests.size_le (Nat.not_le_of_lt hback)
  | emptied hemptied =>
    refine ⟨hemptied.callers, hemptied.sp.trans hbase, fun slot hslot ↦ ?_⟩
    have hlength : floor.dropLast.length + 1 = entered.frame.base := by
      rw [List.length_dropLast, hbase]
      omega
    rw [← hkept slot (by omega), hemptied.shows.getElem? (by omega), List.getElem?_dropLast,
      if_pos (by omega)]

end Runs

end Machine

end StackScript
