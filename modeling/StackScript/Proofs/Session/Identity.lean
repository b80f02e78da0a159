import StackScript.Proofs.Machine.Identity
import StackScript.Proofs.Program.Pool
import StackScript.Proofs.Session.Moments

/-!
Sessions in which no label is given twice. The labels of literals are the entries of the pool, which
only grows from piece to piece, and the count of all other labels goes on where the last machine
left it. So from instant to instant labels are added, and what was labelled stays so
(`Moment.Labelled.reaches`): a label stands for one and the same value in all that a session ever
holds.
-/

set_option autoImplicit false
set_option relaxedAutoImplicit false

namespace StackScript

open Relation (ReflTransGen)

variable {labelling : Labelling}

/-! ### Compiling -/

namespace Labelling

/-- The constants under the labels of their entries. -/
def withPool (labelling : Labelling) (constants : Array Value) : Labelling
  | .literal entry => constants[entry]?
  | label => labelling label

theorem Records.withPool {constants more : Array Value} {serial : Nat}
    (h : labelling.Records constants serial) (hextends : Extends constants more)
    (hstamped : Stamped more) :
    labelling.Grows (labelling.withPool more) ∧ (labelling.withPool more).Records more serial := by
  refine ⟨fun label value hvalue ↦ ?_, fun _ ↦ rfl, hstamped, h.fresh⟩
  cases label with
  | literal entry =>
    rw [h.literals entry] at hvalue
    exact hextends entry value hvalue
  | program => exact hvalue
  | heap serial => exact hvalue

end Labelling

/-- Each literal is stamped with its entry, behind those that are there. -/
theorem stable_stamped (base : Array Value) :
    StableUnderLiterals fun constants ↦ Extends base constants ∧ Stamped constants := by
  constructor
  · rintro constants value ⟨hextends, hstamped⟩
    exact ⟨hextends.trans (extends_push _ _), hstamped.push (by rintro _ ⟨⟩)⟩
  · rintro constants content ⟨hextends, hstamped⟩
    exact ⟨hextends.trans (extends_push _ _), hstamped.push (by rintro _ ⟨⟩; rfl)⟩
  · rintro constants routine ⟨hextends, hstamped⟩
    exact ⟨hextends.trans (extends_push _ _), hstamped.push (by rintro _ ⟨⟩; rfl)⟩

namespace Session

/-- Compiling adds constants, also if it fails, and changes no global. -/
theorem stamped_compile {session after : Session} {program : Program}
    {result : Except CompileError Bytecode} (h : Stamped session.constants)
    (hcompile : session.compile program = (result, after)) :
    Extends session.constants after.constants ∧ Stamped after.constants ∧
      after.globals = session.globals ∧ after.serial = session.serial ∧
      ∀ bytecode, result = .ok bytecode → bytecode.constants = after.constants := by
  have hpool := Stmt.assembleAll_retains (stable_stamped session.constants) program.statements
    .discard 0 (Builder.resume session.scopes session.constants).draft ⟨.refl _, h⟩
  rw [compile_eq] at hcompile
  split at hcompile
  · next code draft hcode =>
    cases hcompile
    obtain ⟨hextends, hstamped⟩ := hpool.at_ok hcode
    refine ⟨hextends, hstamped, rfl, rfl, ?_⟩
    rintro _ ⟨⟩
    rfl
  · next error draft hcode =>
    cases hcompile
    obtain ⟨hextends, hstamped⟩ := hpool.at_error hcode
    exact ⟨hextends, hstamped, rfl, rfl, by rintro _ ⟨⟩⟩

/-- All values that a session holds between its pieces are labelled. -/
structure Labelled (labelling : Labelling) (session : Session) : Prop where
  records : labelling.Records session.constants session.serial
  inGlobal (slot : Nat) (value : Value) :
    session.globals[slot]? = some (some value) → value.Labelled labelling

theorem labelled_new : Labelled (fun _ ↦ none) {} := by
  refine ⟨⟨fun entry ↦ by simp, fun entry constant label hentry ↦ ?_, fun _ _ ↦ rfl⟩,
    fun slot value hslot ↦ ?_⟩
  · simp at hentry
  · simp at hslot

/-- The literals of a piece get their labels. -/
theorem Labelled.compile {session after : Session} {program : Program}
    {result : Except CompileError Bytecode} (h : session.Labelled labelling)
    (hcompile : session.compile program = (result, after)) :
    ∃ more, labelling.Grows more ∧ after.Labelled more := by
  obtain ⟨hextends, hstamped, hglobals, hserial, _⟩ := stamped_compile h.records.stamped hcompile
  obtain ⟨hgrows, hrecords⟩ := h.records.withPool hextends hstamped
  refine ⟨_, hgrows, hserial ▸ hrecords, fun slot value hslot ↦ ?_⟩
  rw [hglobals] at hslot
  exact (h.inGlobal slot value hslot).mono hgrows

/-- A machine begins with the globals of the session. -/
theorem Labelled.new {session : Session} (h : session.Labelled labelling) {bytecode : Bytecode}
    (hconstants : bytecode.constants = session.constants) :
    (Machine.new bytecode session.globals session.serial).Labelled labelling := by
  refine ⟨?_, fun slot value hslot ↦ ?_, fun slot value hslot ↦ ?_, by rintro _ ⟨⟩, ⟨?_, ?_⟩,
    fun i frame hi ↦ ?_⟩
  · have hpool : (Machine.new bytecode session.globals session.serial).constants =
        session.constants := hconstants
    rw [hpool]
    exact h.records
  · simp [Machine.new, Array.getElem?_replicate] at hslot
  · exact h.inGlobal slot value (Machine.getElem?_resize hslot)
  · simp [Machine.new]
  · simp [Machine.new]
  · simp [Machine.new] at hi

theorem Labelled.leftBy {session : Session} {machine : Machine} (h : machine.Labelled labelling)
    (hpool : machine.constants = session.constants) : (session.leftBy machine).Labelled labelling :=
  ⟨hpool ▸ h.records, h.inGlobal⟩

end Session

/-! ### From instant to instant -/

/-- The values that a machine has at hand: in slots and globals, as the one that was discarded
last, or captured by a function at work. -/
inductive Machine.Contains (machine : Machine) : Value → Prop
  | onStack {slot : Nat} {value : Value} (h : machine.stack[slot]? = some (some value)) :
    Contains machine value
  | inGlobal {slot : Nat} {value : Value} (h : machine.globals[slot]? = some (some value)) :
    Contains machine value
  | popped {value : Value} (h : machine.lastPopped = some value) : Contains machine value
  | captured {value : Value} (h : value ∈ machine.frame.free) : Contains machine value
  | waiting {frame : Frame} {value : Value} (hframe : frame ∈ machine.callers)
    (h : value ∈ frame.free) : Contains machine value

theorem Machine.Labelled.contains {machine : Machine} {value : Value}
    (h : machine.Labelled labelling) (hvalue : machine.Contains value) :
    value.Labelled labelling := by
  cases hvalue with
  | onStack hslot => exact h.onStack _ value hslot
  | inGlobal hslot => exact h.inGlobal _ value hslot
  | popped hlast => exact h.popped value hlast
  | captured hmem => exact h.frame.free value hmem
  | waiting hframe hmem =>
    obtain ⟨i, hi⟩ := Array.mem_iff_getElem?.mp hframe
    exact (h.callers i _ hi).free value hmem

namespace Moment

variable {moment later : Moment}

/-- The values that a session has at hand at an instant, with those inside of them. The provided
functions are always at hand. -/
inductive Contains : Moment → Value → Prop
  | provided (moment : Moment) (builtin : Builtin) : Contains moment (.builtin builtin)
  | resting {session : Session} {slot : Nat} {value whole : Value}
    (h : session.globals[slot]? = some (some whole)) (hwithin : value.Within whole) :
    Contains (.resting session) value
  | running {session : Session} {machine : Machine} {value whole : Value}
    (h : machine.Contains whole) (hwithin : value.Within whole) :
    Contains (.running session machine) value

def Labelled (labelling : Labelling) : Moment → Prop
  | resting session => session.Labelled labelling
  | running _ machine => machine.Labelled labelling

theorem Labelled.contains {value : Value} (h : moment.Labelled labelling)
    (hvalue : moment.Contains value) : value.Labelled labelling := by
  cases hvalue with
  | provided _ builtin => exact Value.labelled_builtin builtin
  | resting hslot hwithin => exact (h.inGlobal _ _ hslot).within hwithin
  | running hmachine hwithin => exact (Machine.Labelled.contains h hmachine).within hwithin

theorem Next.labelled (h : moment.Next later) (hnumbered : moment.Numbered)
    (hlabelled : moment.Labelled labelling) :
    ∃ more, labelling.Grows more ∧ later.Labelled more := by
  cases h with
  | refused hcompile => exact Session.Labelled.compile hlabelled hcompile
  | begun hcompile =>
    obtain ⟨_, _, _, _, hconstants⟩ :=
      Session.stamped_compile (Session.Labelled.records hlabelled).stamped hcompile
    obtain ⟨more, hgrows, hafter⟩ := Session.Labelled.compile hlabelled hcompile
    exact ⟨more, hgrows, hafter.new (hconstants _ rfl)⟩
  | stepped hstep =>
    obtain ⟨longest, code, hruns⟩ := hnumbered
    exact (Machine.Labelled.step hlabelled hruns.sound).at_ok hstep
  | finished hstep =>
    obtain ⟨longest, code, hruns⟩ := hnumbered
    obtain ⟨more, hgrows, hlast⟩ := (Machine.Labelled.step hlabelled hruns.sound).at_ok hstep
    have hholds := hruns.sound.step hruns.numbered.sound.draft.constants hruns.within
    rw [hstep] at hholds
    exact ⟨more, hgrows, Session.Labelled.leftBy hlast hholds.pool⟩
  | failed hstep =>
    obtain ⟨longest, code, hruns⟩ := hnumbered
    obtain ⟨more, hgrows, hlast⟩ := (Machine.Labelled.step hlabelled hruns.sound).at_error hstep
    have hholds := hruns.sound.step hruns.numbered.sound.draft.constants hruns.within
    rw [hstep] at hholds
    exact ⟨more, hgrows, Session.Labelled.leftBy hlast hholds.1.pool⟩

/-- Whatever the pieces are, labels are added only. -/
theorem Labelled.reaches (h : moment.Labelled labelling) (hnumbered : moment.Numbered)
    (hlater : ReflTransGen Next moment later) :
    ∃ more, labelling.Grows more ∧ later.Labelled more := by
  induction hlater with
  | refl => exact ⟨labelling, .refl labelling, h⟩
  | tail hbefore hnext ih =>
    obtain ⟨middle, hfirst, hmiddle⟩ := ih
    obtain ⟨more, hsecond, hlast⟩ := hnext.labelled (hnumbered.keeps hbefore).1 hmiddle
    exact ⟨more, hfirst.trans hsecond, hlast⟩

theorem Reachable.labelled (h : moment.Reachable) : ∃ labelling, moment.Labelled labelling := by
  have hnew : Labelled (fun _ ↦ none) (resting {}) := Session.labelled_new
  obtain ⟨labelling, _, hlabelled⟩ := hnew.reaches Session.numbered_new h
  exact ⟨labelling, hlabelled⟩

/-- Values that a session has at hand at whatever times are labelled together. -/
theorem Reachable.labelled_together (h : moment.Reachable)
    (hlater : ReflTransGen Next moment later) : ∃ labelling : Labelling, ∀ value,
      moment.Contains value ∨ later.Contains value → value.Labelled labelling := by
  obtain ⟨labelling, hlabelled⟩ := h.labelled
  obtain ⟨more, hgrows, hlast⟩ := hlabelled.reaches h.numbered hlater
  refine ⟨more, fun value hvalue ↦ ?_⟩
  rcases hvalue with hnow | hthen
  · exact (hlabelled.contains hnow).mono hgrows
  · exact hlast.contains hthen

end Moment

end StackScript
