import StackScript.Proofs.Machine.Turns
import StackScript.Proofs.Program.Directed
import StackScript.Proofs.Session.Layers

/-!
The ways through compiled code. The code of a program and of each of its functions is whole
instructions, all jumps in it lead forward to others, and functions end with a return. So a run
reads nothing but instructions from their begin, goes forward in each function, and never comes to
the end of a function's code (`Session.Reachable.keeps_control_flow`).
-/

set_option autoImplicit false
set_option relaxedAutoImplicit false

namespace StackScript

open Instruction (size encodeAll Begins Directed)

/-! ### Functions at work -/

def ClosedPool (constants : Array Value) : Prop :=
  ∀ (entry : Nat) (label : Label) (routine : Routine),
    constants[entry]? = some (.routine label routine) → routine.Closed

theorem Drawn.closedPool {allowed : List Stmt → Prop} {constants : Array Value} {globals : Nat}
    (h : Drawn allowed constants) (hpool : ValidPool constants globals) : ClosedPool constants := by
  intro entry label routine hentry
  obtain ⟨body, _, hcompiled⟩ := h entry label routine hentry
  obtain ⟨free, hwell⟩ := hpool entry _ hentry
  exact hcompiled.closed hwell

theorem Routine.Closed.size_pos {routine : Routine} (h : routine.Closed) :
    0 < routine.code.size := by
  obtain ⟨_, hcode, _, _, done, last, rfl, _⟩ := h
  have hpositive := last.length_pos
  rw [← Array.length_toList, hcode, Instruction.length_encodeAll, Instruction.size_append,
    Instruction.size_cons]
  omega

theorem Instruction.IsReturn.not_leadsOn {instruction : Instruction} (h : instruction.IsReturn) :
    ¬instruction.leadsOn := by
  rcases h with h | h <;> simp [Instruction.leadsOn, h]

/-- The function stands where an instruction of its code begins. -/
def Frame.AtInstruction (frame : Frame) : Prop :=
  ∃ code, frame.routine.code.toList = encodeAll code ∧
    (∀ instruction ∈ code, instruction.Fits) ∧ Begins code frame.ip

section Steps

variable {constants : Array Value} {globals longest : Nat}

namespace Frame.Sound

variable {inFunction : Bool} {frame : Frame}

theorem ip_le_size (h : frame.Sound constants globals longest inFunction) :
    frame.ip ≤ frame.routine.code.size := by
  obtain ⟨done, rest, hcode, hip, _⟩ := h.code
  rw [← Array.length_toList, hcode, Instruction.length_encodeAll, hip, Instruction.size_append]
  exact Nat.le_add_right _ _

theorem atInstruction (h : frame.Sound constants globals longest inFunction)
    (hip : frame.ip < frame.routine.code.size) : frame.AtInstruction := by
  obtain ⟨done, rest, hcode, hend, hwell⟩ := h.code
  rw [← Array.length_toList, hcode, Instruction.length_encodeAll, hend] at hip
  cases rest with
  | nil => simp at hip
  | cons instruction rest => exact ⟨_, hcode, hwell.fits, done, instruction, rest, rfl, hend⟩

/-- A function that ends with a return leads to its own instructions only. -/
theorem lt_size_of_leadsTo (h : frame.Sound constants globals longest inFunction)
    (hclosed : frame.routine.Closed) {ip : Nat} (hleads : frame.LeadsTo ip) :
    ip < frame.routine.code.size := by
  obtain ⟨instruction, hloaded, hfits, hways⟩ := hleads
  obtain ⟨done, others, hcode, hip, hwell⟩ := h.at_loaded hloaded hfits
  obtain ⟨code, hbytes, hwhole, hdirected, first, last, hlast, hreturn⟩ := hclosed
  obtain rfl := Instruction.eq_of_encodeAll_eq hwhole hwell.fits (hbytes.symm.trans hcode)
  rw [← Array.length_toList, hcode, Instruction.length_encodeAll]
  rcases hways with ⟨honward, rfl⟩ | htarget
  · cases others with
    | nil =>
      obtain rfl := List.singleton_inj.mp (List.append_inj' hlast rfl).2
      exact absurd honward hreturn.not_leadsOn
    | cons next others =>
      have hpositive := next.length_pos
      rw [hip, Instruction.size_append, Instruction.size_cons, Instruction.size_cons]
      omega
  · exact (hdirected done instruction others ip rfl htarget).2.1

end Frame.Sound

/-- No function but the top-level code stands at the end of its code. -/
def Machine.Contained (machine : Machine) : Prop :=
  ∀ i frame, 0 < i → machine.frames[i]? = some frame → frame.ip < frame.routine.code.size

variable {machine after : Machine} (hclosed : ClosedPool constants)

include hclosed

theorem Machine.Sound.closed (h : machine.Sound constants globals longest) {i : Nat} {frame : Frame}
    (hi : 0 < i) (hframe : machine.frames[i]? = some frame) : frame.routine.Closed := by
  obtain ⟨entry, label, hentry⟩ := ((h.frames hframe).held (decide_eq_true hi)).entry
  exact hclosed entry label frame.routine hentry

theorem Machine.Contained.step (h : machine.Contained)
    (hsound : machine.Sound constants globals longest)
    (hnext : after.Sound constants globals longest)
    (hstep : Run.step machine = .ok .running after) : after.Contained := by
  intro i frame hi hframe
  have hturned := hsound.turned hstep
  rcases Nat.lt_trichotomy i machine.callers.size with hless | rfl | hmore
  · rw [hturned.kept hless] at hframe
    exact h i frame hi hframe
  · -- the function that was at work has moved on
    have hafter : machine.callers.size ≤ after.callers.size := by
      have hbound := (Array.getElem?_eq_some_iff.mp hframe).1
      rw [after.size_frames] at hbound
      omega
    obtain ⟨ip, hleads, hmoved⟩ := hturned.moves hafter
    rw [hmoved] at hframe
    cases hframe
    exact hsound.frame.lt_size_of_leadsTo
      (hsound.closed hclosed hi machine.getElem?_frames_size) hleads
  · have hbound := (Array.getElem?_eq_some_iff.mp hframe).1
    rw [after.size_frames] at hbound
    cases hturned with
    | onward _ _ _ hcallers =>
      rw [hcallers] at hbound
      omega
    | returned hcallers =>
      rw [hcallers, Array.size_push] at hmore
      omega
    | called _ _ hcallers hbegins =>
      have hsize : i = after.callers.size := by
        rw [hcallers, Array.size_push] at hbound ⊢
        omega
      have hroutine := hnext.closed hclosed hi hframe
      rw [hsize, after.getElem?_frames_size] at hframe
      cases hframe
      rw [hbegins.ip]
      exact hroutine.size_pos

theorem Machine.Contained.reaches (h : machine.Contained) (hpool : ValidPool constants globals)
    (hlongest : CodeWithin constants longest) (hsound : machine.Sound constants globals longest)
    {count : Nat} (hreaches : machine.Reaches count after) : after.Contained := by
  induction hreaches with
  | here _ => exact h
  | next hstep _ ih =>
    have hnext := hsound.next hpool hlongest hstep
    exact ih (h.step hclosed hsound hnext hstep) hnext

end Steps

/-! ### Sessions -/

namespace Session

/-- A piece brings no other functions than those of the bodies in its text. -/
theorem drawn_compile {allowed : List Stmt → Prop} {session : Session} {program : Program}
    (h : Drawn allowed session.constants)
    (hbodies : ∀ body ∈ Stmt.bodiesAll program.statements, allowed body) :
    Drawn allowed (session.compile program).2.constants := by
  have hdraws := Stmt.assembleAll_draws program.statements hbodies .discard 0
    (Builder.resume session.scopes session.constants).draft
  rw [compile_eq]
  unfold Assembly.Draws Ends at hdraws
  cases hcode : Stmt.assembleAll program.statements .discard 0
      (Builder.resume session.scopes session.constants).draft with
  | ok code draft =>
    rw [hcode] at hdraws
    exact hdraws.1 h
  | error error draft =>
    rw [hcode] at hdraws
    exact hdraws h

/-- All functions of a session are compiled from bodies. -/
theorem Reachable.drawn {session : Session} (h : session.Reachable) :
    Drawn (fun _ ↦ True) session.constants := by
  have henter : ∀ {session : Session} {program : Program}, Drawn (fun _ ↦ True) session.constants →
      Drawn (fun _ ↦ True) (session.enter program).2.constants := by
    intro session program hdrawn
    rw [constants_enter]
    exact drawn_compile hdrawn fun _ _ ↦ trivial
  induction h with
  | new => exact drawn_empty
  | enter _ program ih => exact henter ih
  | @eval session _ source ih =>
    unfold Session.eval
    cases Program.ofSource source with
    | error error => exact ih
    | ok program => exact henter ih

/-- The top-level code of a piece is whole instructions with directed jumps. -/
theorem directed_compile {session after : Session} {program : Program} {bytecode : Bytecode}
    (h : session.Sound) (hcompile : session.compile program = (.ok bytecode, after)) :
    ∃ code, bytecode.code.toList = encodeAll code ∧
      (∀ instruction ∈ code, instruction.Fits) ∧ Directed code := by
  have hcompiled := h.compile program
  rw [hcompile] at hcompiled
  obtain ⟨_, _, _, code, hbytes, hwell⟩ := hcompiled
  rw [compile_eq] at hcompile
  cases hcode : Stmt.assembleAll program.statements .discard 0
      (Builder.resume session.scopes session.constants).draft with
  | error error draft =>
    rw [hcode] at hcompile
    cases hcompile
  | ok inner draft =>
    rw [hcode] at hcompile
    cases hcompile
    have hending : Ending.discard ≠ .keep := by decide
    have hbelow := ((Stmt.assembleAll_below program.statements hending 0 _).of_ok hcode).2
    rw [Nat.zero_add] at hbelow
    have hfits := ((Stmt.assembleAll_levels program.statements False.elim .discard 0 0 _).of_ok
      hcode).2.fits
    obtain rfl := Instruction.eq_of_encodeAll_eq hwell.fits hfits hbytes.symm
    exact ⟨code, rfl, hfits, hwell.forward.directed hbelow⟩

/-- Spec §4.2, jumps and their targets. Assumes: the session is reachable, and the program compiles
in it (`hcompile`). Jumps of its code and of every compiled function lead forward to the start of an
instruction, or behind the last one at top level, and the body of a function ends with a return. So
in each state of the run every frame stands at an instruction, only the program itself comes to the
end of its code, and as long as a frame is at work its offset grows with every step. -/
theorem Reachable.keeps_control_flow {session after : Session} (h : session.Reachable)
    {program : Program} {bytecode : Bytecode}
    (hcompile : session.compile program = (.ok bytecode, after)) :
    (∃ code, bytecode.code.toList = encodeAll code ∧
      (∀ instruction ∈ code, instruction.Fits) ∧ Directed code) ∧
    (∀ (entry : Nat) (label : Label) (routine : Routine),
      bytecode.constants[entry]? = some (.routine label routine) → routine.Closed) ∧
    ∀ count machine, (Machine.new bytecode after.globals after.serial).Reaches count machine →
      (∀ i frame, machine.frames[i]? = some frame → frame.AtInstruction ∨
        i = 0 ∧ frame.ip = frame.routine.code.size) ∧
      (Run.fetch machine = .ok none machine → machine.callers = #[]) ∧
      ∀ next later, Run.step machine = .ok .running next →
        machine.callers.size ≤ next.callers.size →
        Machine.Inside machine.callers.size next later →
        later.callers.size = machine.callers.size →
        later.callers = machine.callers ∧
          ∃ ip, machine.frame.ip < ip ∧ later.frame = { machine.frame with ip := ip } := by
  have hcompiled := h.sound.compile program
  have hdrawn := @drawn_compile _ _ program h.drawn fun _ _ ↦ trivial
  rw [hcompile] at hcompiled hdrawn
  obtain ⟨hafter, _, hconstants, code, hcode, hwell⟩ := hcompiled
  have hpool := hafter.draft.constants
  have hclosed := hdrawn.closedPool hpool
  have hstart := hafter.sound_new hconstants hcode hwell
  have hlongest := (Machine.new bytecode after.globals after.serial).le_longestCode.2
  rw [show (Machine.new bytecode after.globals after.serial).constants = after.constants from
    hconstants] at hlongest
  have hcontained : (Machine.new bytecode after.globals after.serial).Contained := by
    intro i frame hi hframe
    have hbound := (Array.getElem?_eq_some_iff.mp hframe).1
    exact absurd hi (Nat.not_lt_of_le (Nat.le_of_lt_succ hbound))
  refine ⟨directed_compile h.sound hcompile, hconstants ▸ hclosed,
    fun count machine hreaches ↦ ?_⟩
  have hsound := hstart.reaches hpool hlongest hreaches
  have hstands := hcontained.reaches hclosed hpool hlongest hstart hreaches
  refine ⟨fun i frame hframe ↦ ?_, fun hfetch ↦ ?_, fun next later hstep hdepth hinside hback ↦
    hinside.further hpool hlongest hsound hstep hdepth hback⟩
  · have hframeSound := hsound.frames hframe
    rcases Nat.lt_or_ge frame.ip frame.routine.code.size with hip | hip
    · exact .inl (hframeSound.atInstruction hip)
    · refine .inr ⟨Nat.eq_zero_of_not_pos fun hi ↦ ?_, Nat.le_antisymm hframeSound.ip_le_size hip⟩
      exact Nat.not_lt_of_le hip (hstands i frame hi hframe)
  · by_contra hcallers
    have hip := hstands _ _ (Array.size_pos_iff.mpr hcallers) machine.getElem?_frames_size
    unfold Run.fetch at hfetch
    rw [Array.getElem?_eq_getElem hip] at hfetch
    dsimp only at hfetch
    split at hfetch <;> cases hfetch

theorem keeps_control_flow_doubled :
    ∃ bytecode after, Session.compile {} doubled = (.ok bytecode, after) ∧
      ClosedPool bytecode.constants ∧
      ∀ count machine, (Machine.new bytecode after.globals after.serial).Reaches count machine →
        Run.fetch machine = .ok none machine → machine.callers = #[] := by
  have hok : (Session.compile {} doubled).1.isOk := by decide +kernel
  rcases hcompile : Session.compile {} doubled with ⟨error | bytecode, after⟩
  · rw [hcompile] at hok
    cases hok
  · obtain ⟨_, hclosed, hruns⟩ := Reachable.keeps_control_flow .new hcompile
    exact ⟨bytecode, after, rfl, hclosed, fun count machine hreaches ↦
      (hruns count machine hreaches).2.1⟩

end Session

end StackScript
