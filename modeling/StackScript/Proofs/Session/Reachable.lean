import StackScript.Proofs.Bytecode.Editing
import StackScript.Proofs.Machine.Halting
import StackScript.Session

/-!
Sessions after any pieces, those among them that failed included. What such a session keeps is in
order: its names stand for globals that it numbered, the constants are integers, strings and
functions whose code is in order, and the globals hold sound values. So every program that compiles
runs on a machine that is in order (`Session.Reachable.sound_new`), halts
(`Session.Reachable.halts`), and never fails for the sake of its code
(`Session.Reachable.never_malformed`).
-/

set_option autoImplicit false
set_option relaxedAutoImplicit false

namespace StackScript

open Instruction (encodeAll)

/-! ### Compiled pieces -/

theorem Scopes.bindBuiltins_bounded {scopes : Scopes} (h : scopes.Bounded)
    (houter : scopes.outer = []) :
    (Builder.bindBuiltins scopes).Bounded ∧ (Builder.bindBuiltins scopes).outer = [] ∧
      scopes.Grown (Builder.bindBuiltins scopes) := by
  have hone : ∀ (scopes : Scopes) (builtin : Builtin), scopes.Bounded → scopes.outer = [] →
      (scopes.defineBuiltin builtin.index builtin.name).2.Bounded ∧
        (scopes.defineBuiltin builtin.index builtin.name).2.outer = [] ∧
        scopes.Grown (scopes.defineBuiltin builtin.index builtin.name).2 := by
    intro scopes builtin hbounded hout
    refine ⟨Scope.Bounded.bind ⟨builtin.name, .builtin, builtin.index⟩ hbounded rfl
      ⟨Nat.le_refl _, List.prefix_rfl⟩ ?_ ?_, hout, ⟨Nat.le_refl _, List.prefix_rfl⟩,
      (Grown.refl scopes).outer⟩
    · change builtin.index < Builtin.all.length
      cases builtin <;> decide
    · intro around rest hinner
      change scopes.outer = around :: rest at hinner
      rw [hout] at hinner
      cases hinner
  have hall : ∀ (builtins : List Builtin) (scopes : Scopes), scopes.Bounded → scopes.outer = [] →
      let bound := builtins.foldl
        (fun scopes builtin ↦ (scopes.defineBuiltin builtin.index builtin.name).2) scopes
      bound.Bounded ∧ bound.outer = [] ∧ scopes.Grown bound := by
    intro builtins
    induction builtins with
    | nil => exact fun scopes hbounded hout ↦ ⟨hbounded, hout, Grown.refl scopes⟩
    | cons builtin rest ih =>
      intro scopes hbounded hout
      obtain ⟨hfirst, hfirstOuter, hgrown⟩ := hone scopes builtin hbounded hout
      obtain ⟨hlast, hlastOuter, hmore⟩ := ih _ hfirst hfirstOuter
      exact ⟨hlast, hlastOuter, hgrown.trans hmore⟩
  exact hall Builtin.all scopes h houter

namespace Session

/-- What a session keeps between its pieces. -/
structure Sound (session : Session) : Prop where
  outer : session.scopes.outer = []
  draft : Draft.Sound ⟨session.constants, session.scopes⟩
  globals (slot : Nat) (value : Value) : session.globals[slot]? = some (some value) →
    value.Sound session.constants session.scopes.limits.globals

theorem sound_new : Sound {} := by
  refine ⟨rfl, ⟨?_, ?_⟩, ?_⟩
  · intro symbol hsymbol
    cases hsymbol
  · intro entry constant hentry
    simp at hentry
  · intro slot value hslot
    simp at hslot

theorem compile_of_ok (session : Session) {program : Program} {builder : Builder}
    (h : (Builder.resume session.scopes session.constants).add program = (none, builder)) :
    session.compile program = (.ok builder.bytecode,
      { session with scopes := builder.scopes, constants := builder.constants }) := by
  unfold compile
  rw [h]

/-- The session with the names and the constants of the draft. -/
def withDraft (session : Session) (draft : Draft) : Session :=
  { session with scopes := draft.scopes, constants := draft.constants }

/-- A piece is compiled by assembling its statements, from the names and constants of the session.
-/
theorem compile_eq (session : Session) (program : Program) :
    session.compile program =
      match Stmt.assembleAll program.statements .discard 0
        (Builder.resume session.scopes session.constants).draft with
      | .ok code draft => (.ok ⟨(encodeAll code).toArray, draft.constants⟩, session.withDraft draft)
      | .error error draft => (.error error, session.withDraft draft) := by
  let builder := Builder.resume session.scopes session.constants
  have hadd := add_eq_assemble builder program
  unfold Session.compile
  split at hadd
  · next code draft hcode =>
    have hcode : Stmt.assembleAll program.statements .discard 0 builder.draft = .ok code draft :=
      hcode
    obtain ⟨buffer, hbuild, hbuffer⟩ := hadd
    have hbytes : buffer.code = (encodeAll code).toArray := by
      rw [hbuffer]
      exact Array.toList_inj.mp (by simp [builder, Builder.resume])
    rw [hcode, hbuild]
    simp only [Builder.bytecode, Builder.moved, hbytes]
    rfl
  · next error draft hcode =>
    have hcode : Stmt.assembleAll program.statements .discard 0 builder.draft =
        .error error draft := hcode
    obtain ⟨buffer, hbuild⟩ := hadd
    rw [hcode, hbuild]
    rfl

/-- Compiling keeps a session in order, and yields code that is in order. -/
theorem Sound.compile {session : Session} (h : session.Sound) (program : Program) :
    match session.compile program with
    | (.ok bytecode, after) => after.Sound ∧ after.globals = session.globals ∧
      bytecode.constants = after.constants ∧ ∃ code, bytecode.code.toList = encodeAll code ∧
        Instruction.WellFormed after.constants after.scopes.limits 0 code
    | (.error _, after) => after.Sound := by
  obtain ⟨hbounded, houter, hgrown⟩ := Scopes.bindBuiltins_bounded h.draft.scopes h.outer
  let builder := Builder.resume session.scopes session.constants
  have hbuilder : builder.draft.Sound :=
    ⟨hbounded, h.draft.constants.mono hgrown.limits.globals⟩
  have hkeeps := Stmt.assembleAll_keeps program.statements .discard 0 builder.draft hbuilder
  -- what was there before is there still, so that values stay sound
  have hkept : ∀ draft : Draft, draft.Sound → builder.draft.Grown draft →
      Sound (session.withDraft draft) := by
    intro draft hdraft hmore
    refine ⟨hmore.scopes.outer_eq_nil.mpr houter, hdraft, fun slot value hslot ↦ ?_⟩
    exact (h.globals slot value hslot).mono hmore.constants
      (hgrown.trans hmore.scopes).limits.globals
  rw [compile_eq]
  cases hcode : Stmt.assembleAll program.statements .discard 0 builder.draft with
  | ok code draft =>
    rw [hcode] at hkeeps
    obtain ⟨hdraft, hmore, hallows⟩ := hkeeps
    exact ⟨hkept draft hdraft hmore, rfl, rfl, code, rfl, hallows⟩
  | error error draft =>
    rw [hcode] at hkeeps
    exact hkept draft hkeeps.1 hkeeps.2

end Session

/-! ### New machines -/

namespace Machine

/-- A length that is never cut down, and raised to that of each code, is enough for all of them. -/
theorem codeWithin_foldl {raise : Nat → Value → Nat}
    (hgrows : ∀ longest constant, longest ≤ raise longest constant)
    (hraises : ∀ longest label routine, routine.code.size ≤ raise longest (.routine label routine))
    (constants : Array Value) (longest : Nat) :
    longest ≤ constants.foldl raise longest ∧
      CodeWithin constants (constants.foldl raise longest) := by
  have hfold : ∀ (constants : List Value) (longest : Nat),
      longest ≤ constants.foldl raise longest ∧ ∀ label routine,
        Value.routine label routine ∈ constants →
          routine.code.size ≤ constants.foldl raise longest := by
    intro constants
    induction constants with
    | nil => exact fun longest ↦ ⟨Nat.le_refl _, by simp⟩
    | cons constant rest ih =>
      intro longest
      obtain ⟨hfirst, hrest⟩ := ih (raise longest constant)
      refine ⟨Nat.le_trans (hgrows longest constant) hfirst, fun label routine hmem ↦ ?_⟩
      rcases List.mem_cons.mp hmem with rfl | hlater
      · exact Nat.le_trans (hraises longest label routine) hfirst
      · exact hrest label routine hlater
  rw [← Array.foldl_toList]
  refine ⟨(hfold _ _).1, fun entry label routine hentry ↦ (hfold _ _).2 label routine ?_⟩
  exact Array.mem_toList_iff.mpr (Array.mem_of_getElem? hentry)

theorem le_longestCode (machine : Machine) :
    machine.frame.routine.code.size ≤ machine.longestCode ∧
      CodeWithin machine.constants machine.longestCode := by
  refine codeWithin_foldl (fun longest constant ↦ ?_) (fun longest label routine ↦ ?_) _ _
  · split
    · exact Nat.le_max_left _ _
    · exact Nat.le_refl _
  · exact Nat.le_max_right _ _

theorem getElem?_resize {size slot : Nat} {slots : Array (Option Value)} {value : Value}
    (h : (resize size slots)[slot]? = some (some value)) : slots[slot]? = some (some value) := by
  unfold resize at h
  rw [Array.getElem?_append] at h
  split at h
  · next hslot =>
    rw [Array.size_shrink] at hslot
    rw [Array.shrink_eq_take, Array.getElem?_extract] at h
    obtain ⟨_, hvalue⟩ : (slot < size ∧ slot < slots.size) ∧
        slots[slot]? = some (some value) := by simpa using h
    exact hvalue
  · rw [Array.getElem?_replicate] at h
    split at h <;> cases h

end Machine

namespace Session

/-- A machine for a piece that was compiled is in order. -/
theorem Sound.sound_new {session : Session} (h : session.Sound) {bytecode : Bytecode}
    (hconstants : bytecode.constants = session.constants) {code : List Instruction}
    (hcode : bytecode.code.toList = encodeAll code)
    (hwell : Instruction.WellFormed session.constants session.scopes.limits 0 code) :
    let machine := Machine.new bytecode session.globals session.serial
    machine.Sound session.constants session.scopes.limits.globals machine.longestCode := by
  intro machine
  have hlimits : session.scopes.limits = { globals := session.scopes.limits.globals } := by
    simp only [Scopes.limits, h.outer]
    rfl
  refine ⟨⟨hconstants, ?_, ?_, by rintro _ ⟨⟩⟩, ⟨⟨[], code, hcode, rfl, ?_⟩, by simp [machine,
    Machine.new], by simp [machine, Machine.new], machine.le_longestCode.1⟩, ?_, ?_⟩
  · intro slot value hslot
    simp [machine, Machine.new, Array.getElem?_replicate] at hslot
  · intro slot value hslot
    exact h.globals slot value (Machine.getElem?_resize hslot)
  · rw [hlimits] at hwell
    exact hwell
  · intro i frame hi
    simp [machine, Machine.new] at hi
  · change 0 < frameLimit
    decide

/-- A piece given as a tree. -/
def enter (session : Session) (program : Program) : Answer × Session :=
  match session.compile program with
  | (.error error, session) => (⟨.error (.compilation error), ""⟩, session)
  | (.ok bytecode, session) => session.run bytecode

/-- A session after pieces of which any may have failed. -/
inductive Reachable : Session → Prop
  | new : Reachable {}
  | enter {session : Session} (h : Reachable session) (program : Program) :
    Reachable (session.enter program).2
  | eval {session : Session} (h : Reachable session) (source : String) :
    Reachable (session.eval source).2

/-- The machine for a piece that was compiled halts within the allowed steps, and what it leaves
behind is sound. -/
theorem Sound.halts {session : Session} (h : session.Sound) {bytecode : Bytecode}
    (hconstants : bytecode.constants = session.constants) {code : List Instruction}
    (hcode : bytecode.code.toList = encodeAll code)
    (hwell : Instruction.WellFormed session.constants session.scopes.limits 0 code) :
    let machine := Machine.new bytecode session.globals session.serial
    ∃ count, count < machine.stepBound ∧ ∃ result, machine.Halts count result ∧
      Run.run machine = result ∧
      match result with
      | .ok _ last => last.Holds session.constants session.scopes.limits.globals
      | .error error last => last.Holds session.constants session.scopes.limits.globals ∧
        error.IsOrdinary := by
  intro machine
  have hmachine := h.sound_new hconstants hcode hwell
  have hlongest := machine.le_longestCode.2
  have hpool : machine.constants = session.constants := hconstants
  rw [hpool] at hlongest
  obtain ⟨count, hcount, hend⟩ := hmachine.halts h.draft.constants hlongest
  have hbound : count < machine.stepBound :=
    Nat.lt_of_le_of_lt hcount (Machine.measure_lt_stepBound rfl rfl)
  refine ⟨count, hbound, ?_⟩
  rcases hend with ⟨last, hhalts, hlast⟩ | ⟨error, last, hhalts, hlast, hordinary⟩
  · exact ⟨_, hhalts, Machine.run_of_halts hhalts hbound (by simp), hlast⟩
  · refine ⟨_, hhalts, Machine.run_of_halts hhalts hbound ?_, hlast, hordinary⟩
    intro after hlimit
    cases hlimit
    exact hordinary.2 rfl

theorem Sound.enter {session : Session} (h : session.Sound) (program : Program) :
    (session.enter program).2.Sound := by
  have hcompile := h.compile program
  unfold Session.enter
  rcases hresult : session.compile program with ⟨error | bytecode, after⟩
  · simp only [hresult] at hcompile
    exact hcompile
  · simp only [hresult] at hcompile
    obtain ⟨hafter, _, hconstants, code, hcode, hwell⟩ := hcompile
    obtain ⟨_, _, result, _, hrun, hlast⟩ := hafter.halts hconstants hcode hwell
    change (after.run bytecode).2.Sound
    unfold Session.run
    rw [hrun]
    cases result with
    | ok _ last => exact ⟨hafter.outer, hafter.draft, hlast.inGlobal⟩
    | error error last => exact ⟨hafter.outer, hafter.draft, hlast.1.inGlobal⟩

theorem Reachable.sound {session : Session} (h : session.Reachable) : session.Sound := by
  induction h with
  | new => exact Session.sound_new
  | enter _ program ih => exact ih.enter program
  | @eval session _ source ih =>
    unfold Session.eval
    cases Program.ofSource source with
    | error error => exact ih
    | ok program => exact ih.enter program

end Session

end StackScript
