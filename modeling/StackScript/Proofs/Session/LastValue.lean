import Mathlib.Data.List.DropRight
import StackScript.Proofs.Machine.Discards
import StackScript.Proofs.Session.ControlFlow
import StackScript.Proofs.Session.Pieces

/-!
The answer to a piece is the value that was discarded last. If the piece comes to its end, that is
the value of its last expression statement, or none if it has no such statement, as long as nothing
is discarded behind it (`Session.Reachable.answers_last`). A function that is called there may still
discard a value of its own, and then the answer is that one (`Session.discarding_answers`).
-/

set_option autoImplicit false
set_option relaxedAutoImplicit false

namespace StackScript

open Instruction (size encodeAll Popless)

/-! ### The last expression -/

/-- The statements up to the last one that is an expression. -/
def Stmt.leading (stmts : List Stmt) : List Stmt :=
  stmts.rdropWhile fun stmt ↦ !Stmt.yields [stmt]

/-- The statements behind the last one that is an expression. -/
def Stmt.trailing (stmts : List Stmt) : List Stmt :=
  stmts.rtakeWhile fun stmt ↦ !Stmt.yields [stmt]

theorem Stmt.leading_append_trailing (stmts : List Stmt) :
    Stmt.leading stmts ++ Stmt.trailing stmts = stmts :=
  List.rdropWhile_append_rtakeWhile

theorem Stmt.leading_eq (stmts : List Stmt) :
    Stmt.leading stmts = [] ∨ ∃ others expr, Stmt.leading stmts = others ++ [.eval expr] := by
  induction stmts using List.reverseRecOn with
  | nil => exact .inl rfl
  | append_singleton stmts stmt ih =>
    unfold Stmt.leading at ih ⊢
    cases stmt with
    | bind | ret => rwa [List.rdropWhile_concat_pos _ _ _ (by rfl)]
    | eval expr => exact .inr ⟨stmts, expr, List.rdropWhile_concat_neg _ _ _ (by rintro ⟨⟩)⟩

theorem Stmt.not_yields_trailing (stmts : List Stmt) : ¬Stmt.yields (Stmt.trailing stmts) := by
  intro hyields
  unfold Stmt.yields at hyields
  split at hyields
  · next expr hlast =>
    have hmem := List.mem_rtakeWhile_imp (List.mem_of_getLast? hlast)
    simp [Stmt.yields] at hmem
  · cases hyields

/-- What the last of the statements yielded in a run that is behind it: the value of an expression,
which is the topmost operand before it is discarded. Without statements there is none. -/
inductive Machine.Yielded (start : Machine) (draft : Draft) :
    List Stmt → Option Value → Machine → Prop
  | none : Yielded start draft [] none start
  | some {others : List Stmt} {expr : Expr} {first own : List Instruction} {middle last : Draft}
    {count : Nat} {before after : Machine} {value : Value}
    (hfirst : Stmt.assembleAll others .discard 0 draft = .ok first middle)
    (hown : expr.assemble (size first) middle = .ok own last)
    (hreaches : start.Reaches count before) (htop : before.callers = #[])
    (hip : before.frame.ip = size (first ++ own)) (hvalue : before.stackTop = some value)
    (hstep : Run.step before = .ok .running after) :
    Yielded start draft (others ++ [.eval expr]) (some value) after

/-- The run has come by the statements, and what the last of them yielded is the value that was
discarded last. -/
structure Machine.Behind (start : Machine) (draft : Draft) (stmts : List Stmt)
    (first : List Instruction) (value? : Option Value) (middle last : Machine) : Prop where
  yielded : start.Yielded draft stmts value? middle
  top : middle.callers = #[]
  routine : middle.frame.routine = start.frame.routine
  ip : middle.frame.ip = size first
  lastPopped : middle.lastPopped = value?
  reached : ∃ count, start.Reaches count middle
  rest : ∃ count, middle.Reaches count last

/-- The code of an expression statement at the end of others. -/
theorem Stmt.assembleAll_concat_eval {others : List Stmt} {expr : Expr} {draft last : Draft}
    {code : List Instruction}
    (h : Stmt.assembleAll (others ++ [.eval expr]) .discard 0 draft = .ok code last) :
    ∃ first own middle, Stmt.assembleAll others .discard 0 draft = .ok first middle ∧
      expr.assemble (size first) middle = .ok own last ∧
      code = first ++ own ++ [⟨.pop, []⟩] := by
  rw [Stmt.assembleAll_discard_append] at h
  obtain ⟨first, middle, hfirst, hrest⟩ := bind_eq_ok_iff.mp h
  obtain ⟨second, _, hsecond, ⟨⟩⟩ := bind_eq_ok_iff.mp hrest
  rw [Nat.zero_add, Stmt.assembleAll, Stmt.assemble] at hsecond
  obtain ⟨whole, _, hwhole, hnil⟩ := bind_eq_ok_iff.mp hsecond
  obtain ⟨own, _, hown, ⟨⟩⟩ := bind_eq_ok_iff.mp hwhole
  rw [Stmt.assembleAll, pure_bind, List.append_nil] at hnil
  cases hnil
  exact ⟨first, own, middle, hfirst, hown, (List.append_assoc _ _ _).symm⟩

/-- The next instruction is a return outside of functions, which ends the program. -/
def Machine.ReturnsAtTop (machine : Machine) : Prop :=
  machine.callers = #[] ∧ ∃ opcode, (opcode = .returnValue ∨ opcode = .ret) ∧
    Loaded machine.frame.routine.code machine.frame.ip [⟨opcode, []⟩]

section Runs

variable {constants : Array Value} {globals longest count : Nat} {start machine last : Machine}
  {draft middle : Draft}

theorem Run.goOn_ne_finished (action : Run Unit) :
    Run.goOn action machine ≠ .ok .finished last := by
  intro h
  obtain ⟨_, _, _, hend⟩ := bind_eq_ok_iff.mp h
  cases hend

theorem Run.perform_eq_goOn {instruction : Instruction} (h : ¬instruction.IsReturn) :
    ∃ action, Run.perform instruction = Run.goOn action := by
  have hexecute : ∃ action, Run.execute instruction.opcode = Run.goOn action := by
    cases hopcode : instruction.opcode
    case returnValue => exact absurd (.inl hopcode) h
    case ret => exact absurd (.inr hopcode) h
    all_goals exact ⟨_, rfl⟩
  unfold Run.perform
  split
  case h_14 => exact hexecute
  all_goals exact ⟨_, rfl⟩

theorem Run.callers_of_returnWith_finished {value : Value}
    (h : Run.returnWith value machine = .ok .finished last) : machine.callers = #[] := by
  obtain ⟨top, middle, htop, hrest⟩ := bind_eq_ok_iff.mp h
  cases htop
  split at hrest
  · next hempty => exact Array.isEmpty_iff.mp hempty
  · obtain ⟨_, _, _, hend⟩ := bind_eq_ok_iff.mp hrest
    cases hend

/-- A program ends at the end of its code, or by a return outside of functions. -/
theorem Machine.Sound.finished (h : machine.Sound constants globals longest)
    (hstep : Run.step machine = .ok .finished last) :
    Excerpt.Ended machine ∧ last = machine ∨ machine.ReturnsAtTop := by
  rcases h.frame.instruction with hend | ⟨instruction, hloaded, hfits, -⟩
  · rw [Run.step_at_end hend] at hstep
    split at hstep
    · next htop =>
      cases hstep
      exact .inl ⟨⟨htop, hend⟩, rfl⟩
    · exact absurd hstep (Run.goOn_ne_finished _)
  rw [Run.step_eq_perform hloaded hfits] at hstep
  by_cases hreturn : instruction.IsReturn
  swap
  · obtain ⟨action, haction⟩ := Run.perform_eq_goOn hreturn
    rw [haction] at hstep
    exact absurd hstep (Run.goOn_ne_finished _)
  obtain ⟨opcode, operands⟩ := instruction
  obtain rfl : operands = [] := by
    rcases hreturn with rfl | rfl <;> exact hfits.eq_nil rfl
  refine .inr ⟨?_, opcode, hreturn, hloaded⟩
  obtain rfl | rfl : opcode = .returnValue ∨ opcode = .ret := hreturn
  · obtain ⟨_, popped, hpop, hfinish⟩ := bind_eq_ok_iff.mp hstep
    have hcallers := (Run.plain_pop.at_ok hpop).callers
    exact hcallers.symm.trans (Run.callers_of_returnWith_finished hfinish)
  · have hcallers : (machine.advance 1).callers = #[] := Run.callers_of_returnWith_finished hstep
    exact hcallers

/-- A run comes by the code of statements that end with an expression, if it does not begin in a
function. -/
theorem Machine.Sound.behind {front : List Stmt} {first rest : List Instruction}
    (h : start.Sound constants globals longest) (hpool : ValidPool constants globals)
    (hlongest : CodeWithin constants longest)
    (hfirst : Stmt.assembleAll front .discard 0 draft = .ok first middle)
    (hfront : front = [] ∨ ∃ others expr, front = others ++ [.eval expr])
    (hcode : start.frame.routine.code.toList = encodeAll (first ++ rest))
    (hfits : ∀ instruction ∈ first ++ rest, instruction.Fits)
    (htop : start.callers = #[]) (hip : start.frame.ip = 0) (hnone : start.lastPopped = none)
    (hreaches : start.Reaches count last) (hlast : size first ≤ last.outermost.ip) :
    ∃ value? after, start.Behind draft front first value? after last := by
  obtain rfl | ⟨others, expr, rfl⟩ := hfront
  · rw [Stmt.assembleAll] at hfirst
    cases hfirst
    exact ⟨none, start, .none, htop, rfl, hip, hnone, ⟨0, .here _⟩, count, hreaches⟩
  have hending : Ending.discard ≠ .keep := by decide
  have hbelow := ((Stmt.assembleAll_below _ hending 0 draft).of_ok hfirst).2
  rw [Nat.zero_add] at hbelow
  obtain ⟨done, own, between, hdone, hown, rfl⟩ := Stmt.assembleAll_concat_eval hfirst
  have hstart := Machine.outermost_of_empty htop
  obtain ⟨steps, before, hbefore, hempty, hplace, hdiscards, after, more, hstep, hmore⟩ :=
    h.comes_by hpool hlongest (hstart ▸ hcode) hfits hbelow (by
      rw [hstart, hip, Instruction.size_append]
      exact Nat.lt_add_left _ (Instruction.length_pos _)) hreaches hlast
  obtain ⟨-, value, hvalue, hpopped, hcallers, hframe⟩ := (Run.step_pop hdiscards).at_ok hstep
  have hroutine := (h.outermost_reaches hpool hlongest hbefore).2
  rw [hstart, Machine.outermost_of_empty hempty] at hroutine
  refine ⟨some value, after, .some hdone hown hbefore hempty hplace hvalue hstep,
    hcallers.trans hempty, ?_, ?_, hpopped, ?_, more, hmore⟩
  · rw [hframe]
    exact hroutine
  · rw [hframe, Instruction.size_append]
    exact congrArg (· + 1) hplace
  · exact ⟨steps + 1, hbefore.trans (.next hstep (.here _))⟩

/-- Where a run that did not begin in a function is at its end, the whole code is behind it. -/
theorem Machine.Sound.size_le_of_ended {code : List Instruction}
    (h : start.Sound constants globals longest) (hpool : ValidPool constants globals)
    (hlongest : CodeWithin constants longest)
    (hcode : start.frame.routine.code.toList = encodeAll code) (htop : start.callers = #[])
    (hreaches : start.Reaches count last) (hended : Excerpt.Ended last) :
    size code ≤ last.outermost.ip := by
  have hroutine := (h.outermost_reaches hpool hlongest hreaches).2
  have hlast := Machine.outermost_of_empty (Array.isEmpty_iff.mp hended.top)
  rw [hlast] at hroutine ⊢
  rw [hended.ip, ← Array.length_toList, hroutine, Machine.outermost_of_empty htop, hcode,
    Instruction.length_encodeAll]

theorem Excerpt.Ended.not_discards {more : Nat} {later : Machine} (h : Excerpt.Ended machine)
    (hlater : machine.Reaches more later) : ¬later.Discards := by
  cases more with
  | succ more => exact absurd hlater h.stops.not_reaches
  | zero =>
    cases hlater
    exact fun hdiscards ↦ absurd hdiscards.ip_lt (Nat.not_lt_of_le (Nat.le_of_eq h.ip.symm))

/-- Behind statements nothing is discarded any more if there is no more code, or if neither the rest
of it nor any function discards a value. -/
theorem Machine.Behind.not_discards {stmts : List Stmt} {first rest : List Instruction}
    {value? : Option Value} {more : Nat} {later : Machine}
    (h : start.Behind draft stmts first value? machine last)
    (hsound : machine.Sound constants globals longest) (hpool : ValidPool constants globals)
    (hlongest : CodeWithin constants longest)
    (hcode : start.frame.routine.code.toList = encodeAll (first ++ rest))
    (hfits : ∀ instruction ∈ first ++ rest, instruction.Fits)
    (hrest : rest = [] ∨ PoplessPool constants ∧ Popless rest)
    (hlater : machine.Reaches more later) : ¬later.Discards := by
  have hmachine := h.routine ▸ hcode
  rcases hrest with rfl | ⟨hpopless, hrest⟩
  · rw [List.append_nil] at hmachine
    have hended : Excerpt.Ended machine := by
      refine ⟨by simp [h.top], ?_⟩
      rw [h.ip, ← Array.length_toList, hmachine, Instruction.length_encodeAll]
    exact hended.not_discards hlater
  · obtain ⟨hforward, hroutine⟩ := hsound.outermost_reaches hpool hlongest hlater
    rw [Machine.outermost_of_empty h.top] at hforward hroutine
    rw [h.ip] at hforward
    rw [← hroutine] at hmachine
    exact (hsound.reaches hpool hlongest hlater).not_discards hpopless hmachine hfits hrest hforward

/-- Without a return in the top-level code, none is executed there. -/
theorem Machine.Sound.not_returnsAtTop {code : List Instruction}
    (h : machine.Sound constants globals longest)
    (hcode : machine.outermost.routine.code.toList = encodeAll code)
    (hfits : ∀ instruction ∈ code, instruction.Fits)
    (hstays : ∀ instruction ∈ code, ¬instruction.IsReturn) : ¬machine.ReturnsAtTop := by
  rintro ⟨hempty, opcode, hopcode, hloaded⟩
  have hreturn : Instruction.Fits ⟨opcode, []⟩ := by
    rcases hopcode with rfl | rfl <;> exact .nil
  obtain ⟨done, rest, rfl, _⟩ := h.loaded_at_top hempty hcode hfits hloaded hreturn
  exact hstays ⟨opcode, []⟩ (by simp) hopcode

end Runs

/-! ### Answers -/

namespace Session

/-- A session after pieces in which no function discards a value. Any piece may have failed. -/
inductive Sparing : Session → Prop
  | new : Sparing {}
  | enter {session : Session} (h : Sparing session) {program : Program}
    (hbodies : ∀ body ∈ Stmt.bodiesAll program.statements, Stmt.sparingBlock body) :
    Sparing (session.enter program).2

theorem Sparing.drawn {session : Session} (h : session.Sparing) :
    Drawn (fun body ↦ Stmt.sparingBlock body) session.constants := by
  induction h with
  | new => exact drawn_empty
  | @enter session _ program hbodies ih =>
    rw [constants_enter]
    exact drawn_compile ih hbodies

variable {session : Session} {program : Program} {code : List Instruction} {draft : Draft}
  {last : Machine} {count : Nat}

/-- Spec §4.2, the value of the final statement. Assumes: the session is reachable, the program
compiles in it to this code (`hcode`), its run comes to its end (`hhalts`), and it does not end by a
`return` outside of functions (`hreturns`). The answer is the value that the last expression
statement outside of functions yielded, or none if there is no such statement, unless a value is
discarded behind it. None is discarded there if nothing follows the statement, or if no function of
the session or the program discards one and nothing in the rest does. -/
theorem Reachable.answers_last (h : session.Reachable)
    (hcode : Stmt.assembleAll program.statements .discard 0
      (Builder.resume session.scopes session.constants).draft = .ok code draft)
    (hhalts : (session.start code draft).Halts count (.ok () last))
    (hreturns : ∀ steps machine, (session.start code draft).Reaches steps machine →
      ¬machine.ReturnsAtTop) :
    (session.enter program).1.result = .ok last.lastPopped ∧
      ∃ value? middle,
        (session.start code draft).Yielded (Builder.resume session.scopes session.constants).draft
          (Stmt.leading program.statements) value? middle ∧
        (∃ more, middle.Reaches more last) ∧
        ((∀ more later, middle.Reaches more later → ¬later.Discards) → last.lastPopped = value?) ∧
        (Stmt.trailing program.statements = [] ∨ session.Sparing ∧
            (∀ body ∈ Stmt.bodiesAll program.statements, Stmt.sparingBlock body) ∧
            Stmt.sparingBlock (Stmt.trailing program.statements) →
          ∀ more later, middle.Reaches more later → ¬later.Discards) := by
  have henter := h.sound.enter_of_halts hcode hhalts
  obtain ⟨hafter, hstart, hlongest, _⟩ := h.sound.start hcode
  have hpool := hafter.draft.constants
  obtain ⟨final, hreaches, hstops⟩ := hhalts
  have hended : Excerpt.Ended final ∧ last = final := by
    cases hstops with
    | finished hstep =>
      exact ((hstart.reaches hpool hlongest hreaches).finished hstep).resolve_right
        (hreturns count final hreaches)
  obtain ⟨hended, rfl⟩ := hended
  have hsplit := hcode
  rw [← Stmt.leading_append_trailing program.statements, Stmt.assembleAll_discard_append] at hsplit
  obtain ⟨first, between, hfirst, hrest⟩ := bind_eq_ok_iff.mp hsplit
  obtain ⟨rest, _, hrest, ⟨⟩⟩ := bind_eq_ok_iff.mp hrest
  have hfits := ((Stmt.assembleAll_levels program.statements False.elim .discard 0 0 _).of_ok
    hcode).2.fits
  have hstartCode : (session.start (first ++ rest) draft).frame.routine.code.toList =
      encodeAll (first ++ rest) := by simp [start, Machine.new]
  have hend := hstart.size_le_of_ended hpool hlongest hstartCode rfl hreaches hended
  rw [Instruction.size_append] at hend
  obtain ⟨value?, middle, hbehind⟩ := hstart.behind hpool hlongest hfirst (Stmt.leading_eq _)
    hstartCode hfits rfl rfl rfl hreaches (Nat.le_trans (Nat.le_add_right _ _) hend)
  obtain ⟨steps, hreached⟩ := hbehind.reached
  have hmiddle := hstart.reaches hpool hlongest hreached
  refine ⟨by rw [henter]; rfl, value?, middle, hbehind.yielded, hbehind.rest, fun hkeeps ↦ ?_,
    fun hspares more later hlater ↦ ?_⟩
  · obtain ⟨more, hmore⟩ := hbehind.rest
    exact (hmiddle.lastPopped_of_reaches hpool hlongest hmore hkeeps).trans hbehind.lastPopped
  refine hbehind.not_discards hmiddle hpool hlongest hstartCode hfits ?_ hlater
  rcases hspares with hnone | ⟨hsparing, hbodies, hspared⟩
  · rw [hnone, Stmt.assembleAll] at hrest
    cases hrest
    exact .inl rfl
  · have hdrawn := drawn_compile hsparing.drawn hbodies
    rw [compile_eq, hcode] at hdrawn
    have hall : ∀ body ∈ Stmt.bodiesAll (Stmt.trailing program.statements), True :=
      fun _ _ ↦ trivial
    have hdraws := (Stmt.assembleAll_draws _ hall .discard _ _).at_ok hrest
    exact .inr ⟨hdrawn.poplessPool, hdraws.2 hspared (.inr (Stmt.not_yields_trailing _))⟩

/-- The number that a program discards last when it is evaluated, if it is one. -/
def lastNumber? (program : Program) : Option Int64 :=
  match program.evaluate with
  | .ok _ world =>
    match world.discarded with
    | some (.integer value) => some value
    | _ => none
  | .error _ _ => none

/-- What is discarded last in evaluation is so on the machine. -/
theorem completes_of_lastNumber {value : Int64} (hbranched : Stmt.branchedAll program.statements)
    (hcompiles : (Builder.new.add program).1 = none) (hnumber : lastNumber? program = some value) :
    ∃ code draft last, Completes {} program code draft last ∧
      last.lastPopped = some (.integer value) := by
  unfold lastNumber? at hnumber
  split at hnumber
  · next world hevaluate =>
    obtain ⟨code, draft, last, hcompletes, hmatches⟩ :=
      completes_of_evaluate hbranched hcompiles hevaluate
    have hdiscarded := hmatches.discarded
    split at hnumber
    · next number hsome =>
      cases hnumber
      rw [hsome] at hdiscarded
      cases hpopped : last.lastPopped with
      | none =>
        rw [hpopped] at hdiscarded
        cases hdiscarded
      | some other =>
        rw [hpopped] at hdiscarded
        cases hdiscarded with
        | some hrelated =>
          cases hrelated
          exact ⟨code, draft, last, hcompletes, hpopped⟩
    · cases hnumber
  · cases hnumber

/-- A function that gives its argument back, called in an expression statement and in a binding. -/
def remembering : Program where
  statements := [
    .bind "same" (.function ["x"] [.eval (.ident "x")] (some "same")),
    .eval (.call (.ident "same") [.int 3]),
    .bind "four" (.call (.ident "same") [.int 4])]

theorem answers_last_remembering : ∃ code draft last,
    Completes {} remembering code draft last ∧
    (∀ steps machine, (Session.start {} code draft).Reaches steps machine →
      ¬machine.ReturnsAtTop) ∧
    (Session.enter {} remembering).1.result = .ok last.lastPopped ∧
    ∃ value? middle, (Session.start {} code draft).Yielded (Builder.resume {} #[]).draft
      (Stmt.leading remembering.statements) value? middle ∧ last.lastPopped = value? := by
  have hstays : passes
      (fun code _ ↦ code.all fun instruction ↦
        instruction.opcode ≠ .returnValue ∧ instruction.opcode ≠ .ret)
      (Stmt.assembleAll remembering.statements .discard 0 (Builder.resume {} #[]).draft) := by
    decide +kernel
  have hnumber : lastNumber? remembering = some 3 := by decide +kernel
  obtain ⟨code, draft, last, hcompletes, _⟩ :=
    completes_of_lastNumber (by decide) (by decide +kernel) hnumber
  obtain ⟨hcode, count, hhalts⟩ := hcompletes
  obtain ⟨hafter, hstart, hlongest, _⟩ := Session.sound_new.start hcode
  have hreturns : ∀ steps machine, (Session.start {} code draft).Reaches steps machine →
      ¬machine.ReturnsAtTop := by
    intro steps machine hreaches
    have hroutine := (hstart.outermost_reaches hafter.draft.constants hlongest hreaches).2
    have hfits := ((Stmt.assembleAll_levels remembering.statements False.elim .discard 0 0 _).of_ok
      hcode).2.fits
    have hsame : Stmt.assembleAll remembering.statements .discard 0 (Builder.resume {} #[]).draft =
      .ok code draft := hcode
    rw [hsame] at hstays
    refine (hstart.reaches hafter.draft.constants hlongest hreaches).not_returnsAtTop ?_ hfits
      fun instruction hmem ↦ ?_
    · rw [hroutine, Machine.outermost_of_empty rfl]
      simp [Session.start, Machine.new]
    · have hnone := List.all_eq_true.mp hstays instruction hmem
      simpa [Instruction.IsReturn] using hnone
  obtain ⟨hresult, value?, middle, hyielded, _, hlast, hnone⟩ :=
    Reachable.answers_last .new hcode hhalts hreturns
  exact ⟨code, draft, last, ⟨hcode, count, hhalts⟩, hreturns, hresult, value?, middle, hyielded,
    hlast (hnone (.inr ⟨.new, by decide, by decide⟩))⟩

/-- A function that discards a value, called in a binding. -/
def discarding : Program where
  statements := [
    .bind "f" (.function [] [.eval (.int 1), .eval (.int 2)] (some "f")),
    .bind "x" (.call (.ident "f") [])]

/-- There is no expression statement outside of functions, and the answer is the value that the
function discarded. -/
theorem discarding_answers : Stmt.leading discarding.statements = [] ∧
    ∃ output after, Session.enter {} discarding = (⟨.ok (some (.integer 1)), output⟩, after) := by
  have hnumber : lastNumber? discarding = some 1 := by decide +kernel
  obtain ⟨code, draft, last, hcompletes, hpopped⟩ :=
    completes_of_lastNumber (by decide) (by decide +kernel) hnumber
  exact ⟨rfl, _, _, Session.sound_new.enter_eq_ok_iff.mpr
    ⟨code, draft, last, hcompletes, hpopped, rfl, rfl⟩⟩

end Session

end StackScript
