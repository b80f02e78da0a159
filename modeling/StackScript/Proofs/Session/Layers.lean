import StackScript.Proofs.Machine.Layers
import StackScript.Proofs.Session.Reachable

/-!
The stack of a program that runs in a session. If every block of an `if` yields a value, in the
program and in the pieces before it, the functions at work lie in layers at all times: each begins
right above the operands of its caller, ends with its locals wherever a statement of its body ends,
and when it comes back it leaves one value and nothing else. So no operation ever lacks an operand
(`Session.Branched.keeps_layout`).
-/

set_option autoImplicit false
set_option relaxedAutoImplicit false

namespace StackScript

open Instruction (size encodeAll)

/-- The code reads and writes only slots that the function has. -/
def Routine.KeepsToLocals (routine : Routine) : Prop :=
  ∃ code, routine.code.toList = encodeAll code ∧ ∀ index,
    (⟨.getLocal, [index]⟩ ∈ code ∨ ⟨.setLocal, [index]⟩ ∈ code) → index < routine.locals

theorem Frame.Sound.keepsToLocals {constants : Array Value} {globals longest : Nat}
    {inFunction : Bool} {frame : Frame} (h : frame.Sound constants globals longest inFunction) :
    frame.routine.KeepsToLocals := by
  obtain ⟨done, rest, hcode, _, hwell⟩ := h.code
  refine ⟨_, hcode, fun index hmem ↦ ?_⟩
  rcases hmem with hmem | hmem
  · exact hwell.valid _ hmem
  · exact hwell.valid _ hmem

/-- All functions at work are in order. -/
theorem Machine.Sound.frames {constants : Array Value} {globals longest i : Nat} {frame : Frame}
    {machine : Machine} (h : machine.Sound constants globals longest)
    (hframe : machine.frames[i]? = some frame) :
    frame.Sound constants globals longest (decide (0 < i)) := by
  rw [Machine.frames, Array.getElem?_push] at hframe
  split at hframe
  · next hlast =>
    cases hframe
    have hwork := h.frame
    rwa [not_isEmpty_eq, ← hlast] at hwork
  · exact h.callers i frame hframe

namespace Session

/-- A session after pieces in which all blocks yield values. Any piece may have failed. -/
inductive Branched : Session → Prop
  | new : Branched {}
  | enter {session : Session} (h : Branched session) {program : Program}
    (hbranched : Stmt.branchedAll program.statements) : Branched (session.enter program).2

theorem Branched.reachable {session : Session} (h : session.Branched) : session.Reachable := by
  induction h with
  | new => exact .new
  | enter _ _ ih => exact ih.enter _

theorem constants_run (session : Session) (bytecode : Bytecode) :
    (session.run bytecode).2.constants = session.constants := by
  unfold Session.run
  cases Run.run (Machine.new bytecode session.globals session.serial) <;> rfl

theorem constants_enter (session : Session) (program : Program) :
    (session.enter program).2.constants = (session.compile program).2.constants := by
  unfold Session.enter
  split
  · next hresult => rw [hresult]
  · next hresult => rw [hresult, constants_run]

theorem leveledPool_compile {session : Session} {program : Program}
    (h : LeveledPool session.constants) (hbranched : Stmt.branchedAll program.statements) :
    LeveledPool (session.compile program).2.constants := by
  have hlevels := Stmt.assembleAll_levels program.statements (fun _ : True ↦ hbranched) .discard 0
    0 (Builder.resume session.scopes session.constants).draft
  rw [compile_eq]
  unfold Assembly.Levels Ends at hlevels
  cases hcode : Stmt.assembleAll program.statements .discard 0
      (Builder.resume session.scopes session.constants).draft with
  | ok code draft =>
    rw [hcode] at hlevels
    exact hlevels.1.pool trivial h
  | error error draft =>
    rw [hcode] at hlevels
    exact hlevels trivial h

/-- The functions of the session have bodies in which all blocks yield values. -/
theorem Branched.leveledPool {session : Session} (h : session.Branched) :
    LeveledPool session.constants := by
  induction h with
  | new =>
    intro entry label routine hentry
    simp at hentry
  | @enter session _ program hbranched ih =>
    rw [constants_enter]
    exact leveledPool_compile ih hbranched

/-- A program begins with an empty stack. -/
theorem layered_new {session after : Session} {program : Program} {bytecode : Bytecode}
    (hbranched : Stmt.branchedAll program.statements)
    (hcompile : session.compile program = (.ok bytecode, after)) (globals : Array (Option Value))
    (serial : Nat) : (Machine.new bytecode globals serial).Layered #[] [] := by
  rw [compile_eq] at hcompile
  cases hcode : Stmt.assembleAll program.statements .discard 0
      (Builder.resume session.scopes session.constants).draft with
  | error error draft =>
    rw [hcode] at hcompile
    cases hcompile
  | ok code draft =>
    rw [hcode] at hcompile
    cases hcompile
    have hbytes : (Machine.new ⟨(encodeAll code).toArray, draft.constants⟩ globals
        serial).frame.routine.code.toList = encodeAll (code ++ []) := by
      simp [Machine.new]
    obtain ⟨depth, hnumbered, _⟩ := Stmt.numbered_of_boundary hbranched (by decide) hcode
      (.nil _ 0) hbytes (Stmt.boundary_zero _ _)
    refine ⟨[], 0, .bottom _, ⟨rfl, ⟨depth, hnumbered⟩, fun hother ↦ hother.enter⟩, [], rfl, [], rfl,
      ?_, rfl⟩
    exact ⟨Array.size_replicate, List.nil_prefix⟩

/-! ### Layouts of runs -/

/-- Spec §4.4, frames and base pointers. Assumes: all blocks of the session so far yield values
(`h`), so do those of the program (`hbranched`), and it compiles (`hcompile`). At every state of its
run the frames are laid out one above the other, each over the callee and the arguments that its
call found. Between two statements of a body the stack pointer is right behind the locals of the
frame, and a call comes back to where it was made, with one value in the place of the callee. The
stack never underflows. -/
theorem Branched.keeps_layout {session after : Session} (h : session.Branched) {program : Program}
    {bytecode : Bytecode} (hbranched : Stmt.branchedAll program.statements)
    (hcompile : session.compile program = (.ok bytecode, after)) :
    let start := Machine.new bytecode after.globals after.serial
    (∀ count machine, start.Reaches count machine →
      machine.InLayout ∧
      (∀ i frame, machine.frames[i]? = some frame → frame.routine.KeepsToLocals ∧
        (0 < i → ∃ draft body, frame.routine.HasBody draft body)) ∧
      (∀ draft body, machine.frame.routine.HasBody draft body →
        Stmt.Boundary body draft machine.frame.ip →
        machine.sp = machine.frame.base + machine.frame.routine.locals) ∧
      (∀ entered last later, Run.step machine = .ok .running entered →
        machine.callers.size < entered.callers.size →
        Machine.Inside entered.callers.size entered last → Run.step last = .ok .running later →
        later.callers.size < entered.callers.size → Machine.CameBack machine entered later) ∧
      ∀ error last, Run.step machine = .error error last → error ≠ .stackUnderflow) ∧
    ∀ error last, Run.run start = .error error last → error ≠ .stackUnderflow := by
  intro start
  have hcompiled := h.reachable.sound.compile program
  have hleveled := leveledPool_compile h.leveledPool hbranched
  rw [hcompile] at hcompiled hleveled
  obtain ⟨hafter, _, hconstants, code, hcode, hwell⟩ := hcompiled
  have hpool := hafter.draft.constants
  have hlongest := start.le_longestCode.2
  have hkept : start.constants = after.constants := hconstants
  rw [hkept] at hlongest
  have hstart := hafter.sound_new hconstants hcode hwell
  have hlayered := layered_new hbranched hcompile after.globals after.serial
  have hreached : ∀ count machine, start.Reaches count machine →
      machine.Sound after.constants after.scopes.limits.globals start.longestCode ∧
        machine.Layered #[] [] := fun count machine hreaches ↦
    ⟨hstart.reaches hpool hlongest hreaches,
      hlayered.reaches hpool hleveled hlongest hstart hreaches⟩
  have hsteps : ∀ count machine, start.Reaches count machine → ∀ error last,
      Run.step machine = .error error last → error ≠ .stackUnderflow := by
    intro count machine hreaches error last hstep
    obtain ⟨hsound, hlayers⟩ := hreached count machine hreaches
    have hshifts := hlayers.step hleveled hsound fun hne ↦ absurd rfl hne
    unfold Run.Shifts Ends at hshifts
    rwa [hstep] at hshifts
  refine ⟨fun count machine hreaches ↦ ?_, fun error last hrun ↦ ?_⟩
  · obtain ⟨hsound, hlayers⟩ := hreached count machine hreaches
    refine ⟨hlayers.inLayout, fun i frame hframe ↦ ?_, fun draft body hbody hoffset ↦ ?_,
      fun entered last later hcall hdeeper hinside hreturn hback ↦
        hlayers.returned hpool hleveled hlongest hsound hcall hdeeper hinside hreturn hback,
      hsteps count machine hreaches⟩
    · have hframe := hsound.frames hframe
      refine ⟨hframe.keepsToLocals, fun hcalled ↦ ?_⟩
      obtain ⟨entry, label, hentry⟩ := (hframe.held (decide_eq_true hcalled)).entry
      exact hleveled entry label frame.routine hentry
    · obtain ⟨depth, hnumbered, hzero⟩ := hbody.numbered hoffset
      exact hlayers.sp_eq hnumbered hzero
  · obtain ⟨count, _, result, ⟨middle, hreaches, hstops⟩, hresult, _⟩ :=
      hafter.halts hconstants hcode hwell
    have hlast : Run.run start = result := hresult
    rw [← hlast, hrun] at hstops
    cases hstops with
    | failed hstep => exact hsteps count middle hreaches error last hstep

/-- A program with a function that branches, called from an array. -/
def doubled : Program where
  statements := [
    .bind "double" (.function ["x"]
      [.eval (.branch (.binary "<" (.int 1) (.ident "x"))
        [.eval (.binary "+" (.ident "x") (.ident "x"))] none)] (some "double")),
    .eval (.array [.int 4, .call (.ident "double") [.int 21]])]

theorem keeps_layout_doubled : Stmt.branchedAll doubled.statements ∧
    ∃ bytecode after, Session.compile {} doubled = (.ok bytecode, after) ∧
      ∀ count machine, (Machine.new bytecode after.globals after.serial).Reaches count machine →
        machine.InLayout := by
  have hbranched : Stmt.branchedAll doubled.statements := by decide
  have hok : (Session.compile {} doubled).1.isOk := by decide +kernel
  rcases hcompile : Session.compile {} doubled with ⟨error | bytecode, after⟩
  · rw [hcompile] at hok
    cases hok
  · exact ⟨hbranched, bytecode, after, rfl, fun count machine hreaches ↦
      ((Branched.keeps_layout .new hbranched hcompile).1 count machine hreaches).1⟩

end Session

end StackScript
