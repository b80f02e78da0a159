import Mathlib.Logic.Relation
import StackScript.Proofs.Machine.Globals
import StackScript.Proofs.Session.Names

/-!
Sessions from one instant to the next. Between two pieces a session rests, and while a piece is run
a machine goes step by step; a piece may be refused, and a run may fail. Whatever the pieces are, a
global is set at most once: from the instant on at which it has a value it keeps that value
(`Moment.Reachable.keeps_globals`).
-/

set_option autoImplicit false
set_option relaxedAutoImplicit false

namespace StackScript

open Instruction (size encodeAll sets)
open Relation (ReflTransGen)

/-! ### Instants -/

/-- A session at some instant: between its pieces, or with the machine that runs one of them. -/
inductive Moment where
  | resting (session : Session)
  | running (session : Session) (machine : Machine)

def Moment.globals : Moment → Array (Option Value)
  | resting session => session.globals
  | running _ machine => machine.globals

/-- The session that goes on with what a machine leaves behind. -/
def Session.leftBy (session : Session) (machine : Machine) : Session :=
  { session with globals := machine.globals, serial := machine.serial }

/-- What can come next. A piece that is refused for its syntax changes nothing. -/
inductive Moment.Next : Moment → Moment → Prop
  | refused {session after : Session} {program : Program} {error : CompileError}
    (hcompile : session.compile program = (.error error, after)) :
    Next (.resting session) (.resting after)
  | begun {session after : Session} {program : Program} {bytecode : Bytecode}
    (hcompile : session.compile program = (.ok bytecode, after)) :
    Next (.resting session) (.running after (.new bytecode after.globals after.serial))
  | stepped {session : Session} {machine later : Machine}
    (hstep : Run.step machine = .ok .running later) :
    Next (.running session machine) (.running session later)
  | finished {session : Session} {machine last : Machine}
    (hstep : Run.step machine = .ok .finished last) :
    Next (.running session machine) (.resting (session.leftBy last))
  | failed {session : Session} {machine last : Machine} {error : RunError}
    (hstep : Run.step machine = .error error last) :
    Next (.running session machine) (.resting (session.leftBy last))

/-- An instant that some session comes to. -/
def Moment.Reachable (moment : Moment) : Prop :=
  ReflTransGen Moment.Next (.resting {}) moment

/-! ### From instant to instant as pieces are entered -/

namespace Session

variable {session after : Session} {program : Program} {code : List Instruction} {draft : Draft}

theorem passes_reaches (session : Session) {count : Nat} {machine later : Machine}
    (h : machine.Reaches count later) :
    ReflTransGen Moment.Next (.running session machine) (.running session later) := by
  induction h with
  | here => exact .refl
  | next hstep _ ih => exact .head (.stepped hstep) ih

/-- A machine that halts leaves the session to the next piece. -/
theorem passes_halts (session : Session) {count : Nat} {machine : Machine}
    {result : EStateM.Result RunError Machine Unit} (h : machine.Halts count result) :
    ReflTransGen Moment.Next (.running (session.withDraft draft) machine)
      (.resting (session.concluded draft result).2) := by
  obtain ⟨last, hreaches, hstops⟩ := h
  refine (passes_reaches _ hreaches).tail ?_
  cases hstops with
  | finished hstep => exact .finished hstep
  | failed hstep => exact .failed hstep

/-- An answer comes about step by step. -/
theorem Sound.passes_enter (h : session.Sound) (program : Program) :
    ReflTransGen Moment.Next (.resting session) (.resting (session.enter program).2) := by
  cases hcode : Stmt.assembleAll program.statements .discard 0
      (Builder.resume session.scopes session.constants).draft with
  | error error draft =>
    have hcompile : session.compile program = (.error error, session.withDraft draft) := by
      rw [compile_eq, hcode]
    rw [enter_of_error hcode]
    exact .single (.refused hcompile)
  | ok code draft =>
    have hcompile : session.compile program =
        (.ok ⟨(encodeAll code).toArray, draft.constants⟩, session.withDraft draft) := by
      rw [compile_eq, hcode]
    obtain ⟨_, _, _, count, result, hhalts, _⟩ := h.start hcode
    rw [h.enter_of_halts hcode hhalts]
    exact .head (.begun hcompile) (session.passes_halts hhalts)

theorem Sound.passes_eval (h : session.Sound) (source : String) :
    ReflTransGen Moment.Next (.resting session) (.resting (session.eval source).2) := by
  unfold Session.eval
  cases Program.ofSource source with
  | error error => exact .refl
  | ok program => exact h.passes_enter program

/-- The pieces of a session are entered at instants that it comes to. -/
theorem Reachable.moment (h : session.Reachable) : (Moment.resting session).Reachable := by
  induction h with
  | new => exact .refl
  | enter hbefore program ih => exact ih.trans (hbefore.sound.passes_enter program)
  | eval hbefore source ih => exact ih.trans (hbefore.sound.passes_eval source)

/-! ### What is kept between the pieces -/

/-- The functions of the session set no global, and those that were not given out have no value. -/
structure Numbered (session : Session) : Prop where
  sound : session.Sound
  quiet : QuietPool session.constants
  size : session.globals.size ≤ globalsSize
  unset (slot : Nat) : session.scopes.limits.globals ≤ slot → session.globals[slot]?.join = none

theorem numbered_new : Numbered {} :=
  ⟨sound_new, fun entry constant hentry ↦ by simp at hentry, Nat.zero_le _, fun _ _ ↦ by simp⟩

/-- A machine that runs a piece of the session; `code` is the code outside of functions. -/
structure Runs (session : Session) (longest : Nat) (code : List Instruction) (machine : Machine) :
    Prop where
  numbered : session.Numbered
  sound : machine.Sound session.constants session.scopes.limits.globals longest
  within : CodeWithin session.constants longest
  filling : machine.Filling code
  given : ∀ slot ∈ sets code, slot < session.scopes.limits.globals
  size : machine.globals.size = globalsSize
  unset (slot : Nat) : session.scopes.limits.globals ≤ slot → machine.globals[slot]?.join = none

/-- Names and functions are added to those of the session. -/
theorem Numbered.withDraft (h : session.Numbered) (hsound : (session.withDraft draft).Sound)
    (hkept : (Builder.resume session.scopes session.constants).draft.Kept draft) :
    (session.withDraft draft).Numbered ∧
      session.scopes.limits.globals ≤
        (Builder.resume session.scopes session.constants).draft.globals := by
  have hbound := (Scopes.bindBuiltins_bounded h.sound.draft.scopes h.sound.outer).2.2.limits.globals
  refine ⟨⟨hsound, hkept.quiet h.quiet, h.size, fun slot hslot ↦ h.unset slot ?_⟩, hbound⟩
  exact Nat.le_trans hbound (Nat.le_trans hkept.scopes.limits.globals hslot)

theorem Numbered.refused {error : CompileError} (h : session.Numbered)
    (hcode : Stmt.assembleAll program.statements .discard 0
      (Builder.resume session.scopes session.constants).draft = .error error draft) :
    (session.withDraft draft).Numbered := by
  have hsound := h.sound.compile program
  rw [compile_eq, hcode] at hsound
  have hkept := (Stmt.assembleAll_numbers program.statements .discard 0 _).at_error hcode
  exact (h.withDraft hsound hkept).1

/-- The code of a piece sets only globals that it gave out itself. -/
theorem Numbered.runs_start (h : session.Numbered)
    (hcode : Stmt.assembleAll program.statements .discard 0
      (Builder.resume session.scopes session.constants).draft = .ok code draft) :
    (session.withDraft draft).Runs (session.start code draft).longestCode code
      (session.start code draft) := by
  obtain ⟨hsound, hmachine, hlongest, _⟩ := h.sound.start hcode
  obtain ⟨hkept, hnumbers⟩ :=
    (Stmt.assembleAll_numbers program.statements .discard 0 _).at_ok hcode
  obtain ⟨hnumbered, hbound⟩ := h.withDraft hsound hkept
  have hunset : ∀ slot : Nat, session.globals[slot]?.join = none →
      (session.start code draft).globals[slot]?.join = none := by
    intro slot hslot
    cases hstart : (session.start code draft).globals[slot]?.join with
    | none => rfl
    | some value =>
      rw [Machine.getElem?_resize (Option.join_eq_some_iff.mp hstart)] at hslot
      cases hslot
  refine ⟨hnumbered, hmachine, hlongest, ⟨rfl, hnumbers.fits, hnumbers.nodup, ?_⟩,
    fun slot hslot ↦ (hnumbers.fresh slot hslot).2, Machine.size_resize _ session.globals,
    fun slot hslot ↦ hunset slot (hnumbered.unset slot hslot)⟩
  intro done rest hsplit _ slot hslot
  have hmem : slot ∈ sets code := by
    rw [hsplit, Instruction.sets_append]
    exact List.mem_append_right _ hslot
  exact hunset slot (h.unset slot (Nat.le_trans hbound (hnumbers.fresh slot hmem).1))

namespace Runs

variable {longest count : Nat} {machine later : Machine}

/-- A run that is under way gives values to globals that it gave out, and to no others. -/
theorem of_filled (h : session.Runs longest code machine) (hfilled : machine.Filled (sets code) later)
    (hfilling : later.Filling code)
    (hsound : later.Sound session.constants session.scopes.limits.globals longest) :
    session.Runs longest code later := by
  refine ⟨h.numbered, hsound, h.within, hfilling, h.given, hfilled.size.trans h.size,
    fun slot hslot ↦ ?_⟩
  rw [hfilled.others slot fun hmem ↦ Nat.not_lt_of_le hslot (h.given slot hmem)]
  exact h.unset slot hslot

/-- The session with the globals of a machine that came to its end. -/
theorem leftBy (h : session.Runs longest code machine) (hfilled : machine.Filled (sets code) later)
    (hholds : later.Holds session.constants session.scopes.limits.globals) :
    (session.leftBy later).Numbered := by
  refine ⟨⟨h.numbered.sound.outer, h.numbered.sound.draft, hholds.inGlobal⟩, h.numbered.quiet,
    Nat.le_of_eq (hfilled.size.trans h.size), fun slot hslot ↦ ?_⟩
  have hother : slot ∉ sets code := fun hmem ↦ Nat.not_lt_of_le hslot (h.given slot hmem)
  change later.globals[slot]?.join = none
  rw [hfilled.others slot hother]
  exact h.unset slot hslot

theorem reaches (h : session.Runs longest code machine) (hreaches : machine.Reaches count later) :
    machine.Filled (sets code) later ∧ session.Runs longest code later := by
  obtain ⟨hfilled, hfilling, hsound⟩ := Machine.Filling.reaches hreaches h.filling h.sound
    h.numbered.sound.draft.constants h.within h.numbered.quiet
  exact ⟨hfilled, h.of_filled hfilled hfilling hsound⟩

/-- What one step does to a run and, if it is the last one, to the session. -/
theorem step (h : session.Runs longest code machine) :
    Ends Run.step machine
      (fun progress later ↦ machine.Filled (sets code) later ∧ match progress with
        | .running => session.Runs longest code later
        | .finished => (session.leftBy later).Numbered)
      fun _ later ↦ machine.Filled (sets code) later ∧ (session.leftBy later).Numbered := by
  have hpool := h.numbered.sound.draft.constants
  have hstep := h.filling.step h.sound hpool h.within h.numbered.quiet
  have houtcome := h.sound.step hpool h.within
  cases hresult : Run.step machine with
  | error error later =>
    have hfilled := hstep.at_error hresult
    rw [hresult] at houtcome
    exact .of_error hresult ⟨hfilled, h.leftBy hfilled houtcome.1⟩
  | ok progress later =>
    obtain ⟨hfilled, hnext⟩ := hstep.at_ok hresult
    rw [hresult] at houtcome
    refine .of_ok hresult ⟨hfilled, ?_⟩
    cases progress with
    | finished => exact h.leftBy hfilled houtcome
    | running =>
      obtain ⟨hfilling, hsound⟩ := hnext rfl
      exact h.of_filled hfilled hfilling hsound

end Runs

end Session

/-! ### Globals -/

namespace Moment

variable {moment later : Moment}

/-- What holds at every instant. -/
def Numbered : Moment → Prop
  | resting session => session.Numbered
  | running session machine => ∃ longest code, session.Runs longest code machine

/-- The globals that have a value keep it. -/
def Keeps (moment later : Moment) : Prop :=
  ∀ (slot : Nat) (value : Value), moment.globals[slot]? = some (some value) →
    later.globals[slot]? = some (some value)

theorem Keeps.of_filled {slots : List Nat} {session : Session} {machine last : Machine}
    (h : machine.Filled slots last) (hglobals : later.globals = last.globals) :
    (running session machine).Keeps later := by
  intro slot value hvalue
  rw [hglobals]
  exact Option.join_eq_some_iff.mp (h.kept slot value (Option.join_eq_some_iff.mpr hvalue))

theorem Next.numbered (h : moment.Next later) (hnumbered : moment.Numbered) :
    later.Numbered ∧ moment.Keeps later := by
  cases h with
  | @refused session after program error hcompile =>
    rw [Session.compile_eq] at hcompile
    split at hcompile
    · cases hcompile
    · next error draft hcode =>
      cases hcompile
      exact ⟨Session.Numbered.refused hnumbered hcode, fun _ _ hvalue ↦ hvalue⟩
  | @begun session after program bytecode hcompile =>
    rw [Session.compile_eq] at hcompile
    split at hcompile
    · next code draft hcode =>
      cases hcompile
      refine ⟨⟨_, code, Session.Numbered.runs_start hnumbered hcode⟩, fun slot value hvalue ↦ ?_⟩
      have hslot : slot < globalsSize :=
        Nat.lt_of_lt_of_le (Array.getElem?_eq_some_iff.mp hvalue).1 hnumbered.size
      refine Option.join_eq_some_iff.mp ((Machine.join_getElem?_resize hslot).trans ?_)
      exact Option.join_eq_some_iff.mpr hvalue
    · cases hcompile
  | stepped hstep =>
    obtain ⟨longest, code, hruns⟩ := hnumbered
    obtain ⟨hfilled, hnext⟩ := hruns.step.at_ok hstep
    exact ⟨⟨longest, code, hnext⟩, .of_filled hfilled rfl⟩
  | finished hstep =>
    obtain ⟨longest, code, hruns⟩ := hnumbered
    obtain ⟨hfilled, hnext⟩ := hruns.step.at_ok hstep
    exact ⟨hnext, .of_filled hfilled rfl⟩
  | failed hstep =>
    obtain ⟨longest, code, hruns⟩ := hnumbered
    obtain ⟨hfilled, hnext⟩ := hruns.step.at_error hstep
    exact ⟨hnext, .of_filled hfilled rfl⟩

theorem Reachable.numbered (h : moment.Reachable) : moment.Numbered := by
  induction h with
  | refl => exact Session.numbered_new
  | tail _ hnext ih => exact (hnext.numbered ih).1

theorem Numbered.keeps (h : moment.Numbered) (hlater : ReflTransGen Next moment later) :
    later.Numbered ∧ moment.Keeps later := by
  induction hlater with
  | refl => exact ⟨h, fun _ _ hvalue ↦ hvalue⟩
  | tail _ hnext ih =>
    obtain ⟨hlast, hkeeps⟩ := hnext.numbered ih.1
    exact ⟨hlast, fun slot value hvalue ↦ hkeeps slot value (ih.2 slot value hvalue)⟩

/-- Spec §4.4 and §5, globals. Assumes: the moment of a session is reachable, and the later one
comes behind it (`h`, `hlater`). From the instant on at which a global has a value it keeps it,
whatever the inputs are and however they fail. An instruction that sets a global finds it without a
value. -/
theorem Reachable.keeps_globals (h : moment.Reachable) (hlater : ReflTransGen Next moment later) :
    (∀ (slot : Nat) (value : Value), moment.globals[slot]? = some (some value) →
      later.globals[slot]? = some (some value)) ∧
    ∀ (session : Session) (machine : Machine) (slot : Nat), later = .running session machine →
      slot < globalsSize →
      Loaded machine.frame.routine.code machine.frame.ip [⟨.setGlobal, [slot]⟩] →
      machine.globals[slot]? = some none := by
  obtain ⟨hnumbered, hkeeps⟩ := h.numbered.keeps hlater
  refine ⟨hkeeps, ?_⟩
  rintro session machine slot rfl hslot hloaded
  obtain ⟨longest, code, hruns⟩ := hnumbered
  obtain ⟨_, hunset, _⟩ :=
    hruns.filling.sets_next hruns.sound hruns.numbered.quiet hslot hloaded
  rw [Array.getElem?_eq_getElem (hruns.size ▸ hslot)] at hunset ⊢
  exact congrArg some hunset

/-- A name is bound again, and the global that it had before keeps its value. -/
theorem keeps_globals_rebound : ∃ before after : Session, (resting before).Reachable ∧
    ReflTransGen Next (resting before) (resting after) ∧
    (before.enter ⟨[.bind "a" (.int 2)]⟩).2 = after ∧
    before.globals[0]? = some (some (.integer 1)) ∧ after.globals[0]? = some (some (.integer 1)) := by
  obtain ⟨_, _, before, _, hreachable, hread, hscopes, _⟩ := Session.enter_binding
  have hlater := hreachable.sound.passes_enter ⟨[.bind "a" (.int 2)]⟩
  have hfind : (Builder.bindBuiltins before.scopes).current.find? "a" =
      some ⟨"a", .global, 0⟩ := by
    rw [hscopes]
    rfl
  have hvalue : before.globals[0]? = some (some (.integer 1)) := by
    rw [hreachable.sound.enter_reading_global hfind (by decide)] at hread
    refine Option.join_eq_some_iff.mp ?_
    generalize before.globals[0]?.join = content at hread ⊢
    cases content with
    | none => cases hread
    | some value =>
      cases hread
      rfl
  exact ⟨before, _, hreachable.moment, hlater, rfl, hvalue,
    (hreachable.moment.keeps_globals hlater).1 0 _ hvalue⟩

end Moment

end StackScript
