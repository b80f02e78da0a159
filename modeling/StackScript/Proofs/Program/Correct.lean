import StackScript.Proofs.Program.Calls
import StackScript.Proofs.Session.Reachable

/-!
Programs that are compiled run as their trees are evaluated. The code of a whole program stands at a
site without slots of its own, around which there is no function. What its statements come to is
what the machine halts with: the globals, the value that was discarded last, what was printed, and
the error if there is one (`Program.run_agrees`). Each block of an `if` is asked to end with an
expression or a `return`, so that there is a value for every branch.
-/

set_option autoImplicit false
set_option relaxedAutoImplicit false

namespace StackScript

open Instruction (size encodeAll)

/-- A run and an evaluation come to the same end: with the same error, if there is one, and with the
machine as evaluation leaves the world. -/
inductive Run.Agrees (constants : Array Value) :
    EStateM.Result RunError Machine Unit → EStateM.Result Stop World Unit → Prop
  | ended {machine : Machine} {world : World} (hmatches : world.Matches constants machine) :
    Agrees constants (.ok () machine) (.ok () world)
  | failed {error : RunError} {machine : Machine} {world : World}
    (hmatches : world.Matches constants machine) :
    Agrees constants (.error error machine) (.error (.failed error) world)

/-! ### The end of a program -/

namespace Site

variable {site : Site} {world : World} {held : List Value} {ip : Nat} {machine : Machine}

/-- A return outside of all functions ends the program, as if its value were discarded. -/
theorem Stands.finish (h : site.Stands world held ip machine) (hcallers : site.callers = #[])
    {value : Value Function} {result : Value}
    (hvalue : value.Compiled site.plan.constants result) :
    ∃ after, Run.returnWith result machine = .ok .finished after ∧
      World.Matches site.plan.constants { world with discarded := some value } after := by
  have htop : Run.atTopLevel machine = .ok true machine := by
    unfold Run.atTopLevel
    rw [h.callers, hcallers]
    rfl
  refine ⟨{ machine with sp := 0, lastPopped := some result }, bind_of_ok htop, ?_⟩
  exact ⟨h.rest.globalsSize, h.rest.globals, .some hvalue, h.rest.serial, h.rest.output⟩

/-- The program ends behind its code. -/
theorem Stands.halts (h : site.Stands world held ip machine) (hcallers : site.callers = #[])
    (hip : ip = site.frame.routine.code.size) : machine.Halts 0 (.ok () machine) := by
  have hend : machine.frame.ip = machine.frame.routine.code.size := by rw [h.frame]; exact hip
  have hstep := Run.step_at_end hend
  rw [h.callers, hcallers] at hstep
  exact ⟨machine, .here machine, .finished hstep⟩

/-- What the statements of a program come to is what the machine halts with. -/
theorem Carries.agrees {statements : List Stmt} {call : Caller} {context : Context}
    {code : List Instruction}
    (h : site.Carries machine
      (Stmt.evaluateAll call site.activation statements context 0 world)
      (site.LeavesOption [] (size code)))
    (hcallers : site.callers = #[])
    (hcode : site.Has 0 (code ++ if Stmt.yields statements then [⟨.pop, []⟩] else []))
    (hsize : site.frame.routine.code.size =
      size (code ++ if Stmt.yields statements then [⟨.pop, []⟩] else [])) :
    ∃ count result, machine.Halts count result ∧ Run.Agrees site.plan.constants result
      (match Stmt.evaluateAll call site.activation statements context 0 world with
      | .ok (some value) world | .error (.returned value) world =>
        .ok () { world with discarded := some value }
      | .ok none world => .ok () world
      | .error stop world => .error stop world) := by
  cases hevaluate : Stmt.evaluateAll call site.activation statements context 0 world with
  | ok yielded last =>
    rw [hevaluate] at h
    obtain ⟨count, after, hreaches, hleaves⟩ := h
    rw [← (Stmt.isSome_of_evaluateAll hevaluate).1] at hcode hsize
    cases yielded with
    | none =>
      have hhalts := Stands.halts hleaves hcallers (by rw [hsize]; simp)
      exact ⟨_, _, hhalts.of_reaches hreaches, .ended hleaves.rest⟩
    | some value =>
      obtain ⟨result, hvalue, hstands⟩ := hleaves
      have hlast := hcode.right
      rw [Nat.zero_add] at hlast
      obtain ⟨more, final, hmore, hfinal⟩ := hstands.carries_discard hlast hvalue
      have hhalts := hfinal.halts hcallers (by rw [hsize]; simp [Instruction.length]; rfl)
      exact ⟨_, _, (hhalts.of_reaches hmore).of_reaches hreaches, .ended hfinal.rest⟩
  | error stop last =>
    rw [hevaluate] at h
    cases stop with
    | returned value =>
      obtain ⟨count, middle, result, held, ip, after, hreaches, hstep, hvalue, hstands⟩ := h
      obtain ⟨final, hfinish, hmatches⟩ := hstands.finish hcallers hvalue
      exact ⟨_, _, ⟨middle, hreaches, .finished (hstep.trans hfinish)⟩, .ended hmatches⟩
    | failed error =>
      obtain ⟨count, middle, after, hreaches, hstep, hmatches⟩ := h
      exact ⟨_, _, ⟨middle, hreaches, .failed hstep⟩, .failed hmatches⟩
    | stuck => exact h.elim

/-! ### The begin of a program -/

/-- The site of a whole program: nothing is around it, and it has no slots. -/
def whole (bytecode : Bytecode) : Site where
  plan := ⟨bytecode.constants, 0, [], 0⟩
  activation := {}
  frame := (Machine.new bytecode #[] 0).frame
  callers := #[]
  lower := []

theorem sound_whole (bytecode : Bytecode) : (whole bytecode).Sound :=
  ⟨rfl, rfl, rfl, List.nodup_nil, .nil, rfl, fun hdepth ↦ absurd hdepth (Nat.lt_irrefl 0)⟩

theorem stands_whole (bytecode : Bytecode) :
    (whole bytecode).Stands {} [] 0 (Machine.new bytecode #[] 0) := by
  refine ⟨rfl, rfl, rfl, ⟨Machine.size_resize _ _, fun slot ↦ ?_, .none, rfl, rfl⟩, rfl,
    ⟨[], .nil, Array.size_replicate, List.nil_prefix⟩, rfl⟩
  have hunset : (Machine.new bytecode #[] 0).globals[slot]?.join = none := by
    cases hslot : (Machine.new bytecode #[] 0).globals[slot]?.join with
    | none => rfl
    | some value =>
      have hsome := Machine.getElem?_resize (Option.join_eq_some_iff.mp hslot)
      simp at hsome
  rw [hunset]
  exact .none

end Site

/-! ### Programs -/

open Assembly

/-- A program that compiles is assembled. -/
theorem Program.assembled_of_add {program : Program} {builder : Builder}
    (h : Builder.new.add program = (none, builder)) :
    ∃ code draft, Stmt.assembleAll program.statements .discard 0 Builder.new.draft =
        .ok code draft ∧
      builder.bytecode = ⟨(encodeAll code).toArray, draft.constants⟩ := by
  have hadd := add_eq_assemble Builder.new program
  cases hcode : Stmt.assembleAll program.statements .discard 0 Builder.new.draft with
  | error error draft =>
    have hsame : Stmt.assembleAll program.statements .discard Builder.new.buffer.code.size
        Builder.new.draft = .error error draft := hcode
    rw [hsame] at hadd
    obtain ⟨buffer, hfails⟩ := hadd
    rw [h] at hfails
    cases hfails
  | ok code draft =>
    have hsame : Stmt.assembleAll program.statements .discard Builder.new.buffer.code.size
        Builder.new.draft = .ok code draft := hcode
    rw [hsame] at hadd
    obtain ⟨buffer, hbuilds, hbuffer⟩ := hadd
    rw [h] at hbuilds
    cases hbuilds
    refine ⟨code, draft, rfl, ?_⟩
    rw [Builder.bytecode, Builder.buffer_moved, hbuffer]
    exact congrArg (Bytecode.mk · draft.constants) (Array.ext' (by simp [Builder.new, Builder.resume]))

/-- The code of a program that compiles is laid out for its text, and all its instructions fit. -/
theorem Program.laid_of_add {program : Program} {builder : Builder}
    (h : Builder.new.add program = (none, builder)) :
    ∃ code, Stmt.LaidAll program.statements ⟨builder.constants, 0, [], 0⟩ .top 0 code ∧
      builder.bytecode.code = (encodeAll (code ++ if Stmt.yields program.statements then
        [⟨.pop, []⟩] else [])).toArray ∧
      ∀ instruction ∈ code ++ if Stmt.yields program.statements then [⟨.pop, []⟩] else [],
        instruction.Fits := by
  have hbounded := Scopes.bindBuiltins_bounded Session.sound_new.draft.scopes rfl
  have hsound : Builder.new.draft.Sound :=
    ⟨hbounded.1, Session.sound_new.draft.constants.mono hbounded.2.2.limits.globals⟩
  have hkeeps := Stmt.assembleAll_keeps program.statements .discard 0 Builder.new.draft hsound
  obtain ⟨whole, draft, hcode, hbytes⟩ := Program.assembled_of_add h
  have hconstants : builder.constants = draft.constants := congrArg Bytecode.constants hbytes
  rw [hcode] at hkeeps
  rw [Stmt.assembleAll_eq] at hcode
  obtain ⟨code, _, hkept, ⟨⟩⟩ := bind_eq_ok_iff.mp hcode
  obtain ⟨hlast, _, hgrown, hlaid⟩ := Stmt.laidAll_of_assembleAll program.statements 0
    Builder.new.draft .top ⟨hsound, Scopes.at_top, rfl⟩ code draft hkept
  rw [hconstants, hbytes]
  refine ⟨code, hlaid _ ⟨.refl _, hgrown.depth_eq.symm, ?_, fun hdepth ↦ ?_⟩, rfl, hkeeps.2.2.fits⟩
  · have hnone := hlast.scopes.captures_eq_nil (List.length_eq_zero_iff.mp hgrown.depth_eq)
    exact ⟨[], (List.append_nil _).trans hnone⟩
  · exact absurd hdepth (Nat.lt_irrefl 0)

/-- A machine with the code of a program halts with what evaluation comes to. -/
theorem Program.halts_agrees {program : Program} {builder : Builder}
    (hbranched : Stmt.branchedAll program.statements)
    (hcompile : Builder.new.add program = (none, builder)) :
    ∃ count result, (Machine.new builder.bytecode #[] 0).Halts count result ∧
      Run.Agrees builder.constants result program.evaluate := by
  obtain ⟨code, hlaid, hcode, hfits⟩ := Program.laid_of_add hcompile
  have hhas : (Site.whole builder.bytecode).Has 0
      (code ++ if Stmt.yields program.statements then [⟨.pop, []⟩] else []) :=
    ⟨⟨[], [], by simp [Site.whole, Machine.new, hcode], rfl⟩, hfits⟩
  have hcarries := Stmt.carriesAll (Site.sound_whole builder.bytecode)
    (Eval.call_carries (frameLimit - 1) rfl) program.statements hbranched hlaid hhas.left
    (Site.stands_whole builder.bytecode) rfl
  rw [Nat.zero_add] at hcarries
  exact hcarries.agrees rfl hhas (by simp [Site.whole, Machine.new, hcode])

theorem Run.Agrees.failure {constants : Array Value}
    {result : EStateM.Result RunError Machine Unit} {error : RunError} {world : World}
    (h : Run.Agrees constants result (.error (.failed error) world)) :
    ∃ machine, result = .error error machine := by
  cases h with
  | failed => exact ⟨_, rfl⟩

/-- What evaluation discarded last was discarded last by the machine. -/
theorem Run.Agrees.popped {constants : Array Value}
    {result : EStateM.Result RunError Machine Unit} {value : Value Function} {world : World}
    (h : Run.Agrees constants result (.ok () world)) (hworld : world.discarded = some value) :
    ∃ machine popped, result = .ok () machine ∧ machine.lastPopped = some popped ∧
      value.Compiled constants popped := by
  cases h with
  | @ended machine _ hmatches =>
    have hpopped := hmatches.discarded
    rw [hworld] at hpopped
    cases hlast : machine.lastPopped with
    | none =>
      rw [hlast] at hpopped
      cases hpopped
    | some popped =>
      rw [hlast] at hpopped
      cases hpopped with
      | some hvalue => exact ⟨machine, popped, rfl, hlast, hvalue⟩

/-- The run of a program that compiles is what its machine halts with. -/
theorem Program.run_of_halts {program : Program} {builder : Builder}
    (hcompile : Builder.new.add program = (none, builder)) {count : Nat}
    {result : EStateM.Result RunError Machine Unit}
    (hhalts : (Machine.new builder.bytecode #[] 0).Halts count result) :
    Run.run (Machine.new builder.bytecode #[] 0) = result := by
  have hcompiled := Session.sound_new.compile program
  rw [Session.compile_of_ok {} hcompile] at hcompiled
  obtain ⟨hsound, _, hconstants, code, hcode, hwell⟩ := hcompiled
  obtain ⟨_, _, other, hother, hrun, _⟩ := hsound.halts hconstants hcode hwell
  obtain ⟨rfl, _⟩ := hother.unique hhalts
  exact hrun

end StackScript
