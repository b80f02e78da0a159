import StackScript.Proofs.Machine.Decode
import StackScript.Proofs.Machine.Stack
import StackScript.Proofs.Machine.Trace
import StackScript.Proofs.Program.Layout
import StackScript.Proofs.Value.Related

/-!
Machines that stand where evaluation stands. A machine stands at a site if the function at work, its
slots and the values that wait there are those of the evaluation (`Site.Stands`). It carries a part
of the evaluation out if its steps lead to where that part ends: to its end, back from the function,
or to the same error (`Site.Carries`). Parts that are carried out one after the other are carried
out together (`Site.Carries.bind`).
-/

set_option autoImplicit false
set_option relaxedAutoImplicit false

namespace StackScript

open Instruction (size)

/-- The machine's value, with the compiled bodies of its functions among the constants. -/
abbrev Value.Compiled (constants : Array Value) : Value Function → Value → Prop :=
  Value.Related (Function.Compiled constants)

/-- The machine has what evaluation has outside of the functions at work. -/
structure World.Matches (constants : Array Value) (world : World) (machine : Machine) : Prop where
  globalsSize : machine.globals.size = globalsSize
  globals (slot : Nat) : Option.Rel (Value.Compiled constants) (world.globals slot)
    machine.globals[slot]?.join
  discarded : Option.Rel (Value.Compiled constants) world.discarded machine.lastPopped
  serial : machine.serial = world.serial
  output : machine.output = world.output

/-- A function at work on the machine: what its code is laid out for, what evaluation knows of it,
its frame, the frames that wait, and the cells below its slots. -/
structure Site where
  plan : Plan
  activation : Activation
  frame : Frame
  callers : Array Frame
  lower : List (Option Value)

namespace Site

/-- How many cells are below the values that wait. -/
def floor (site : Site) : Nat :=
  site.lower.length + site.plan.slots

/-- The frame and the activation are the same function. -/
structure Sound (site : Site) : Prop where
  base : site.frame.base = site.lower.length
  depth : site.activation.depth = site.plan.depth
  captures : site.activation.captures = site.plan.captures
  nodup : site.plan.captures.Nodup
  captured : List.Forall₂ (Value.Compiled site.plan.constants) site.activation.captured
    site.frame.free
  length : site.activation.captured.length = site.plan.captures.length
  self : 0 < site.plan.depth →
    site.activation.self.Compiled site.plan.constants site.frame.closure

/-- The instructions stand in the code of the function at work. -/
structure Has (site : Site) (start : Nat) (code : List Instruction) : Prop where
  loaded : Loaded site.frame.routine.code start code
  fits : ∀ instruction ∈ code, instruction.Fits

/-- The machine is at the offset in the function at work, and the values wait above its slots. -/
structure Stands (site : Site) (world : World) (held : List Value) (ip : Nat) (machine : Machine) :
    Prop where
  constants : machine.constants = site.plan.constants
  frame : machine.frame = { site.frame with ip := ip }
  callers : machine.callers = site.callers
  rest : world.Matches site.plan.constants machine
  count : world.locals.length = site.plan.slots
  cells : ∃ locals, List.Forall₂ (Option.Rel (Value.Compiled site.plan.constants)) world.locals
    locals ∧ Shows machine.stack (site.lower ++ locals ++ held.map some)
  sp : machine.sp = site.floor + held.length

variable {site : Site} {world : World} {held : List Value} {ip : Nat} {machine : Machine}

/-! ### Code -/

theorem Has.left {start : Nat} {first second : List Instruction}
    (h : site.Has start (first ++ second)) : site.Has start first :=
  ⟨h.loaded.left, fun instruction hmem ↦ h.fits instruction (List.mem_append_left _ hmem)⟩

theorem Has.right {start : Nat} {first second : List Instruction}
    (h : site.Has start (first ++ second)) : site.Has (start + size first) second :=
  ⟨h.loaded.right, fun instruction hmem ↦ h.fits instruction (List.mem_append_right _ hmem)⟩

/-! ### The stack -/

namespace Stands

variable {value : Value} {values : List Value}

theorem advance (h : site.Stands world held ip machine) (count : Nat) :
    site.Stands world held (ip + count) (machine.advance count) := by
  refine ⟨h.constants, ?_, h.callers, ⟨h.rest.globalsSize, h.rest.globals, h.rest.discarded,
    h.rest.serial, h.rest.output⟩, h.count, h.cells, h.sp⟩
  simp only [Machine.advance, h.frame]

theorem restack (h : site.Stands world held ip machine) {stack : Array (Option Value)} {sp : Nat}
    (hcells : ∃ locals, List.Forall₂ (Option.Rel (Value.Compiled site.plan.constants)) world.locals
      locals ∧ Shows stack (site.lower ++ locals ++ values.map some))
    (hsp : sp = site.floor + values.length) :
    site.Stands world values ip { machine with stack := stack, sp := sp } :=
  ⟨h.constants, h.frame, h.callers, ⟨h.rest.globalsSize, h.rest.globals, h.rest.discarded,
    h.rest.serial, h.rest.output⟩, h.count, hcells, hsp⟩

/-- All cells with the number of those that do not wait. -/
theorem shows (h : site.Stands world held ip machine) : ∃ locals,
    List.Forall₂ (Option.Rel (Value.Compiled site.plan.constants)) world.locals locals ∧
      (site.lower ++ locals).length = site.floor ∧
      Shows machine.stack (site.lower ++ locals ++ held.map some) := by
  obtain ⟨locals, hlocals, hshows⟩ := h.cells
  refine ⟨locals, hlocals, ?_, hshows⟩
  rw [List.length_append, ← hlocals.length_eq, h.count]
  rfl

theorem push (h : site.Stands world held ip machine)
    (hroom : site.floor + held.length < stackSize) (value : Value) :
    ∃ after, Run.push value machine = .ok () after ∧
      site.Stands world (held ++ [value]) ip after := by
  obtain ⟨locals, hlocals, hfloor, hshows⟩ := h.shows
  have hlength : (site.lower ++ locals ++ held.map some).length = site.floor + held.length := by
    rw [List.length_append, hfloor, List.length_map]
  obtain ⟨stack, hpush, hpushed⟩ := Run.push_of_shows hshows (h.sp.trans hlength.symm)
    (hlength ▸ hroom) value
  refine ⟨_, hpush, h.restack ⟨locals, hlocals, by simpa using hpushed⟩ ?_⟩
  simp only [hlength, List.length_append, List.length_singleton, Nat.add_assoc]

theorem takeTop (h : site.Stands world (held ++ values) ip machine) {count : Nat}
    (hcount : count = values.length) :
    ∃ after, Run.takeTop count machine = .ok values after ∧ site.Stands world held ip after := by
  subst hcount
  obtain ⟨locals, hlocals, hfloor, hshows⟩ := h.shows
  rw [List.map_append, ← List.append_assoc] at hshows
  have hlength : (site.lower ++ locals ++ held.map some).length = site.floor + held.length := by
    rw [List.length_append, hfloor, List.length_map]
  have hsp : machine.sp = (site.lower ++ locals ++ held.map some).length + values.length := by
    rw [h.sp, hlength, List.length_append, Nat.add_assoc]
  obtain ⟨stack, htake, hleft⟩ := Run.takeTop_of_shows hshows hsp
  exact ⟨_, htake, h.restack ⟨locals, hlocals, hleft⟩ hlength⟩

theorem pop (h : site.Stands world (held ++ [value]) ip machine) :
    ∃ after, Run.pop machine = .ok value after ∧ site.Stands world held ip after := by
  obtain ⟨locals, hlocals, hfloor, hshows⟩ := h.shows
  rw [List.map_append, ← List.append_assoc] at hshows
  have hlength : (site.lower ++ locals ++ held.map some).length = site.floor + held.length := by
    rw [List.length_append, hfloor, List.length_map]
  have hsp : machine.sp = (site.lower ++ locals ++ held.map some).length + 1 := by
    rw [h.sp, hlength, List.length_append, Nat.add_assoc]
    rfl
  obtain ⟨stack, hpop, hleft⟩ := Run.pop_of_shows hshows hsp
  exact ⟨_, hpop, h.restack ⟨locals, hlocals, hleft⟩ hlength⟩

/-- Values that wait have a place. -/
theorem room (h : site.Stands world held ip machine) :
    site.floor + held.length ≤ stackSize := by
  obtain ⟨locals, _, hfloor, hshows⟩ := h.shows
  have hlength := hshows.length_le
  rwa [List.length_append, hfloor, List.length_map] at hlength

end Stands

/-! ### One step -/

/-- The action does on the machine what a part of the evaluation does: both come to their ends, or
both fail with the same error. -/
def Answers {α β : Type} (site : Site) (action : Run α) (machine : Machine)
    (outcome : EStateM.Result Stop World β) (done : α → Machine → β → World → Prop) : Prop :=
  match action machine, outcome with
  | .ok yielded after, .ok value world => done yielded after value world
  | .error error after, .error (.failed other) world =>
    error = other ∧ world.Matches site.plan.constants after
  | _, _ => False

section Answers

variable {α β γ δ : Type} {done : α → Machine → β → World → Prop}
  {further : γ → Machine → δ → World → Prop}

theorem Answers.bind {action : Run α} {next : α → Run γ} {part : Eval β} {rest : β → Eval δ}
    (h : site.Answers action machine (part world) done)
    (hnext : ∀ yielded after value world, done yielded after value world →
      site.Answers (next yielded) after (rest value world) further) :
    site.Answers (action >>= next) machine ((part >>= rest) world) further := by
  unfold Answers at h ⊢
  cases haction : action machine with
  | ok yielded after =>
    cases hpart : part world with
    | ok value world =>
      rw [haction, hpart] at h
      rw [bind_of_ok haction, bind_of_ok hpart]
      exact hnext yielded after value world h
    | error stop world =>
      rw [haction, hpart] at h
      exact h.elim
  | error error after =>
    cases hpart : part world with
    | ok value world =>
      rw [haction, hpart] at h
      exact h.elim
    | error stop world =>
      rw [haction, hpart] at h
      rw [bind_of_error haction, bind_of_error hpart]
      cases stop <;> exact h

/-- A step of the machine that evaluation does not see. -/
theorem Answers.of_ok {action : Run α} {next : α → Run γ} {yielded : α} {after : Machine}
    {outcome : EStateM.Result Stop World δ} (haction : action machine = .ok yielded after)
    (h : site.Answers (next yielded) after outcome further) :
    site.Answers (action >>= next) machine outcome further := by
  unfold Answers at h ⊢
  rwa [bind_of_ok haction]

end Answers

/-! ### Many steps -/

/-- The steps of the machine lead to where the part of the evaluation ends. -/
def Carries {α : Type} (site : Site) (machine : Machine) (outcome : EStateM.Result Stop World α)
    (done : α → World → Machine → Prop) : Prop :=
  match outcome with
  | .ok value world => ∃ count after, machine.Reaches count after ∧ done value world after
  | .error (.returned value) world => ∃ count middle returned held ip after,
    machine.Reaches count middle ∧ Run.step middle = Run.returnWith returned after ∧
      value.Compiled site.plan.constants returned ∧ site.Stands world held ip after
  | .error (.failed error) world => ∃ count middle after,
    machine.Reaches count middle ∧ Run.step middle = .error error after ∧
      world.Matches site.plan.constants after
  | .error .stuck _ => False

section Carries

variable {α β : Type} {done : α → World → Machine → Prop} {further : β → World → Machine → Prop}

theorem Carries.of_reaches {count : Nat} {middle : Machine}
    {outcome : EStateM.Result Stop World α} (hreaches : machine.Reaches count middle)
    (h : site.Carries middle outcome done) : site.Carries machine outcome done := by
  match outcome, h with
  | .ok value world, ⟨more, after, hrest, hdone⟩ =>
    exact ⟨count + more, after, hreaches.trans hrest, hdone⟩
  | .error (.returned value) world, ⟨more, last, returned, held, ip, after, hrest, hreturn⟩ =>
    exact ⟨count + more, last, returned, held, ip, after, hreaches.trans hrest, hreturn⟩
  | .error (.failed error) world, ⟨more, last, after, hrest, hfails⟩ =>
    exact ⟨count + more, last, after, hreaches.trans hrest, hfails⟩

theorem Carries.bind {part : Eval α} {rest : α → Eval β}
    (h : site.Carries machine (part world) done)
    (hnext : ∀ value world after, done value world after →
      site.Carries after (rest value world) further) :
    site.Carries machine ((part >>= rest) world) further := by
  cases hpart : part world with
  | ok value next =>
    rw [hpart] at h
    obtain ⟨count, after, hreaches, hdone⟩ := h
    rw [bind_of_ok hpart]
    exact .of_reaches hreaches (hnext value next after hdone)
  | error stop next =>
    rw [hpart] at h
    rw [bind_of_error hpart]
    cases stop <;> exact h

theorem Carries.mono {outcome : EStateM.Result Stop World α} {weaker : α → World → Machine → Prop}
    (h : site.Carries machine outcome done)
    (hweaker : ∀ value world after, done value world after → weaker value world after) :
    site.Carries machine outcome weaker := by
  match outcome, h with
  | .ok value world, ⟨count, after, hreaches, hdone⟩ =>
    exact ⟨count, after, hreaches, hweaker value world after hdone⟩
  | .error (.returned value) world, h => exact h
  | .error (.failed error) world, h => exact h

theorem Carries.with_outcome {outcome : EStateM.Result Stop World α}
    (h : site.Carries machine outcome done) :
    site.Carries machine outcome fun value world after ↦
      done value world after ∧ outcome = .ok value world := by
  match outcome, h with
  | .ok value world, ⟨count, after, hreaches, hdone⟩ =>
    exact ⟨count, after, hreaches, hdone, rfl⟩
  | .error (.returned value) world, h => exact h
  | .error (.failed error) world, h => exact h

theorem Carries.pure {value : α} (h : done value world machine) :
    site.Carries machine ((Pure.pure value : Eval α) world) done :=
  ⟨0, machine, .here machine, h⟩

theorem Stands.step {instruction : Instruction} (h : site.Stands world held ip machine)
    (hcode : site.Has ip [instruction]) :
    Run.step machine = Run.perform instruction (machine.advance instruction.length) := by
  refine Run.step_eq_perform ?_ (hcode.fits instruction List.mem_cons_self)
  rw [h.frame]
  exact hcode.loaded

/-- An instruction is carried out by one step. -/
theorem Stands.carries {instruction : Instruction} (h : site.Stands world held ip machine)
    (hcode : site.Has ip [instruction]) {action : Run Unit}
    (hperform : Run.perform instruction = Run.goOn action)
    {outcome : EStateM.Result Stop World α}
    (hanswers : site.Answers action (machine.advance instruction.length) outcome
      fun _ after value world ↦ done value world after) :
    site.Carries machine outcome done := by
  have hstep := h.step hcode
  rw [hperform, Run.goOn] at hstep
  unfold Answers at hanswers
  cases haction : action (machine.advance instruction.length) with
  | ok _ after =>
    rw [bind_of_ok haction] at hstep
    rw [haction] at hanswers
    cases outcome with
    | ok value world => exact ⟨1, after, .next hstep (.here after), hanswers⟩
    | error stop world => exact hanswers.elim
  | error error after =>
    rw [bind_of_error haction] at hstep
    rw [haction] at hanswers
    cases outcome with
    | ok value world => exact hanswers.elim
    | error stop world =>
      cases stop with
      | failed other =>
        obtain ⟨rfl, hmatches⟩ := hanswers
        exact ⟨0, machine, after, .here machine, hstep, hmatches⟩
      | returned value => exact hanswers.elim
      | stuck => exact hanswers.elim

end Carries

end Site

end StackScript
