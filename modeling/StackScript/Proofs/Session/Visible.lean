import StackScript.Proofs.Program.Passage
import StackScript.Proofs.Session.Moments

/-!
Names that stay visible. Once a `let` outside of functions has stored a value, its name comes to
that value in all later pieces, whether they succeed or fail, until a piece has a `let` of the name
outside of functions (`Session.Reachable.keeps_name`). The names of the provided functions do not
stay: each piece binds them anew (`Session.enter_reading_provided`).
-/

set_option autoImplicit false
set_option relaxedAutoImplicit false

namespace StackScript

open Instruction (size encodeAll sets)
open Relation (ReflTransGen)

/-- Outside of functions a name is bound to a new global. -/
theorem Assembly.define_outside {draft : Draft} (h : draft.scopes.outer = []) (name : String) :
    ∃ slot, define name draft =
        .ok ⟨name, .global, slot⟩ { draft with scopes := (draft.scopes.define name).2 } ∧
      (draft.scopes.define name).2.current.find? name = some ⟨name, .global, slot⟩ ∧
      (draft.scopes.define name).2.outer = [] := by
  obtain ⟨constants, current, outer⟩ := draft
  obtain rfl : outer = [] := h
  exact ⟨_, rfl, (Scope.find?_bind current _ name).trans (if_pos rfl), rfl⟩

/-- The code of statements with a `let` among them, whose name is not bound again behind it. -/
theorem Stmt.assembleAll_bind {earlier : List Stmt} {name : String} {value : Expr}
    {rest : List Stmt} {code : List Instruction} {draft final : Draft}
    (houter : draft.scopes.outer = [])
    (hcode : Stmt.assembleAll (earlier ++ .bind name value :: rest) .discard 0 draft =
      .ok code final)
    (hname : ∀ other, .bind name other ∉ value.outside ++ Stmt.outsideAll rest) :
    ∃ before middle own last slot behind,
      Stmt.assembleAll earlier .discard 0 draft = .ok before middle ∧
      value.assemble (size before) { middle with scopes := (middle.scopes.define name).2 } =
        .ok own last ∧
      code = before ++ own ++ [⟨.setGlobal, [slot]⟩] ++ behind ∧
      final.scopes.current.find? name = some ⟨name, .global, slot⟩ := by
  rw [Stmt.assembleAll_discard_append] at hcode
  obtain ⟨before, middle, hbefore, hcode⟩ := bind_eq_ok_iff.mp hcode
  obtain ⟨others, _, hothers, ⟨⟩⟩ := bind_eq_ok_iff.mp hcode
  rw [Nat.zero_add, Stmt.assembleAll] at hothers
  obtain ⟨first, between, hfirst, hothers⟩ := bind_eq_ok_iff.mp hothers
  obtain ⟨behind, _, hbehind, ⟨⟩⟩ := bind_eq_ok_iff.mp hothers
  -- no function is around any of the statements
  have hspared : Draft.Spared [] draft middle :=
    Part.spared_assemble (.stmts earlier .discard) (fun stmt _ ↦ stmt.spares_nil) hbefore
  obtain ⟨slot, hdefine, hfind, hnone⟩ :=
    Assembly.define_outside (hspared.scopes.outer_eq_nil.mpr houter) name
  rw [Stmt.assemble, bind_of_ok hdefine] at hfirst
  obtain ⟨own, last, hown, hfirst⟩ := bind_eq_ok_iff.mp hfirst
  obtain ⟨set, _, hset, ⟨⟩⟩ := bind_eq_ok_iff.mp hfirst
  obtain ⟨rfl, rfl⟩ := Assembly.instruction_eq_ok hset
  refine ⟨before, middle, own, between, slot, behind, hbefore, hown, by simp, ?_⟩
  have hspares := Stmt.spares_of_not_bound hname
  rw [List.forall_mem_append] at hspares
  have hkept := (Part.spared_assemble (.expr value) hspares.1 hown).trans
    (Part.spared_assemble (.stmts rest .discard) hspares.2 hbehind)
  have hsame := hkept.kept name (List.mem_singleton.mpr rfl)
  rw [Scopes.global, hkept.scopes.outer_eq_nil.mpr hnone, Scopes.global, hnone] at hsame
  exact hsame.trans hfind

namespace Session

variable {session later compiled : Session} {program : Program} {bytecode : Bytecode}
  {name : String} {slot : Nat} {stored : Value}

/-- The program as a passage, in front of which is nothing. -/
def passage (session : Session) (program : Program) : Passage :=
  ⟨.stmts program.statements .discard, 0,
    (Builder.resume session.scopes session.constants).draft⟩

/-- From the first session on, pieces without a `let` of the name outside of functions lead to the
second one. Any of them may fail. -/
inductive Later (name : String) (session : Session) : Session → Prop
  | here : Later name session session
  | enter {later : Session} (h : Later name session later) {program : Program}
    (hname : ∀ value, .bind name value ∉ Stmt.outsideAll program.statements) :
    Later name session (later.enter program).2
  | eval {later : Session} (h : Later name session later) {source : String}
    (hname : ∀ program, Program.ofSource source = .ok program →
      ∀ value, .bind name value ∉ Stmt.outsideAll program.statements) :
    Later name session (later.eval source).2

/-- A name stands for a global that has this value. -/
structure Has (session : Session) (name : String) (slot : Nat) (value : Value) : Prop where
  numbered : session.Numbered
  name : (Builder.bindBuiltins session.scopes).current.find? name = some ⟨name, .global, slot⟩
  value : session.globals[slot]? = some (some value)

theorem Has.slot_lt (h : session.Has name slot stored) : slot < globalsSize :=
  Nat.lt_of_lt_of_le (Array.getElem?_eq_some_iff.mp h.value).1 h.numbered.size

theorem Has.enter (h : session.Has name slot stored)
    (hname : ∀ value, .bind name value ∉ Stmt.outsideAll program.statements) :
    (session.enter program).2.Has name slot stored := by
  have hsound := h.numbered.sound
  have hmoment : (Moment.resting session).Numbered := h.numbered
  obtain ⟨hnumbered, hkeeps⟩ := hmoment.keeps (hsound.passes_enter program)
  refine ⟨hnumbered, ?_, hkeeps slot stored h.value⟩
  have hfind := hsound.find?_assembled hname
  cases hcode : Stmt.assembleAll program.statements .discard 0
      (Builder.resume session.scopes session.constants).draft with
  | error error draft =>
    rw [enter_of_error hcode]
    exact (hfind.at_error hcode).trans h.name
  | ok code draft =>
    obtain ⟨_, _, _, count, result, hhalts, _⟩ := hsound.start hcode
    rw [hsound.enter_of_halts hcode hhalts]
    cases result <;> exact (hfind.at_ok hcode).trans h.name

theorem Later.has (hlater : session.Later name later) (h : session.Has name slot stored) :
    later.Has name slot stored := by
  induction hlater with
  | here => exact h
  | enter _ hname ih => exact ih.enter hname
  | @eval later _ source hname ih =>
    unfold Session.eval
    cases hparse : Program.ofSource source with
    | error error => exact ih
    | ok program => exact ih.enter (hname program hparse)

/-- The code of a program stands in the function outside of all others. -/
theorem Runs.loaded {longest : Nat} {code before own behind : List Instruction} {machine : Machine}
    (h : session.Runs longest code machine) (hcallers : machine.callers = #[])
    (hcode : code = before ++ own ++ behind) :
    Loaded machine.frame.routine.code (Instruction.size before) own := by
  have houtermost := h.filling.outermost
  rw [Machine.outermost_of_empty hcallers, hcode] at houtermost
  refine ⟨encodeAll before, encodeAll behind, ?_, Instruction.length_encodeAll before⟩
  rw [houtermost, Instruction.encodeAll_append, Instruction.encodeAll_append]

/-- Wherever a program reads the name outside of functions, the value is pushed. -/
theorem Has.reads (h : session.Has name slot stored)
    (hname : ∀ value, .bind name value ∉ Stmt.outsideAll program.statements)
    (hcompile : session.compile program = (.ok bytecode, compiled)) {start count : Nat}
    {draft : Draft} {machine : Machine}
    (hwithin : Passage.Within ⟨.expr (.ident name), start, draft⟩ (session.passage program))
    (hreaches : (Machine.new bytecode compiled.globals compiled.serial).Reaches count machine)
    (hcallers : machine.callers = #[]) (hip : machine.frame.ip = start) :
    Run.step machine = Run.goOn (Run.push stored) (machine.advance 3) := by
  rw [compile_eq] at hcompile
  split at hcompile
  swap
  · cases hcompile
  · next code last hcode =>
    cases hcompile
    obtain ⟨hfilled, hruns⟩ := (h.numbered.runs_start hcode).reaches hreaches
    have houter : (session.passage program).draft.scopes.outer = [] :=
      (Scopes.bindBuiltins_bounded h.numbered.sound.draft.scopes h.numbered.sound.outer).2.1
    obtain ⟨before, behind, hsplit, hstart⟩ :=
      hwithin.loads (Stmt.spares_of_not_bound hname) houter h.name hcode
    have hstart : machine.frame.ip = size before := hip.trans (hstart.trans (Nat.zero_add _))
    have hloaded := hruns.loaded hcallers hsplit
    rw [← hstart] at hloaded
    have hvalue : machine.globals[slot]? = some (some stored) := by
      refine Option.join_eq_some_iff.mp (hfilled.kept slot stored ?_)
      refine (Machine.join_getElem?_resize h.slot_lt).trans ?_
      exact Option.join_eq_some_iff.mpr h.value
    have hread : Run.readGlobal slot (machine.advance 3) = .ok (some stored) (machine.advance 3) := by
      have hglobals : (machine.advance 3).globals[slot]? = some (some stored) := hvalue
      rw [Run.readGlobal, hglobals]
    have hload : Run.loadGlobal slot (machine.advance 3) = Run.push stored (machine.advance 3) :=
      bind_of_ok hread
    rw [Run.step_eq_perform hloaded (.cons h.slot_lt .nil)]
    change Run.goOn (Run.loadGlobal slot) (machine.advance 3) = _
    simp only [Run.goOn, bind, EStateM.bind, hload]

/-! ### Values that are stored -/

/-- A run of the program comes to the end of the `let` behind the `earlier` statements, and stores
the value. -/
inductive Stores (session : Session) (earlier : List Stmt) (name : String) (value : Expr)
    (rest : List Stmt) (stored : Value) : Prop
  | intro {before own : List Instruction} {middle last : Draft} {bytecode : Bytecode}
    {compiled : Session} {count : Nat} {machine later : Machine}
    (hearlier : Stmt.assembleAll earlier .discard 0
      (Builder.resume session.scopes session.constants).draft = .ok before middle)
    (hvalue : value.assemble (size before)
      { middle with scopes := (middle.scopes.define name).2 } = .ok own last)
    (hcompile : session.compile ⟨earlier ++ .bind name value :: rest⟩ = (.ok bytecode, compiled))
    (hreaches : (Machine.new bytecode compiled.globals compiled.serial).Reaches count machine)
    (hcallers : machine.callers = #[]) (hip : machine.frame.ip = size before + size own)
    (htop : machine.stackTop = some stored) (hstep : Run.step machine = .ok .running later) :
    Stores session earlier name value rest stored

/-- A name has the value that was stored for it once the piece is done. -/
theorem Stores.has {earlier : List Stmt} {value : Expr} {rest : List Stmt}
    (h : session.Stores earlier name value rest stored) (hsession : session.Numbered)
    (hbuiltin : ∀ builtin : Builtin, builtin.name ≠ name)
    (hname : ∀ other, .bind name other ∉ value.outside ++ Stmt.outsideAll rest) :
    ∃ slot, (session.enter ⟨earlier ++ .bind name value :: rest⟩).2.Has name slot stored := by
  obtain @⟨before, own, middle, last, _, _, _, machine, later, hearlier, hvalue, hcompile, hreaches,
    hcallers, hip, htop, hstep⟩ := h
  rw [compile_eq] at hcompile
  split at hcompile
  swap
  · cases hcompile
  · next code draft hcode =>
    cases hcompile
    have hsound := hsession.sound
    have houter : (Builder.resume session.scopes session.constants).draft.scopes.outer = [] :=
      (Scopes.bindBuiltins_bounded hsound.draft.scopes hsound.outer).2.1
    obtain ⟨first, _, second, _, slot, behind, hfirst, hsecond, hsplit, hfind⟩ :=
      Stmt.assembleAll_bind houter hcode hname
    obtain ⟨rfl, rfl⟩ := EStateM.Result.ok.inj (hearlier.symm.trans hfirst)
    obtain ⟨rfl, rfl⟩ := EStateM.Result.ok.inj (hvalue.symm.trans hsecond)
    -- the step stores the value
    have hruns := ((hsession.runs_start hcode).reaches hreaches).2
    have hmem : ⟨.setGlobal, [slot]⟩ ∈ code := by
      rw [hsplit]
      simp
    have hslot : slot < globalsSize := by
      cases hruns.filling.fits _ hmem with
      | cons hslot _ => exact hslot
    have hloaded := hruns.loaded hcallers hsplit
    rw [Instruction.size_append, ← hip] at hloaded
    obtain ⟨_, _, _, value, hvalue, hset⟩ := (Run.step_setGlobal hloaded hslot).at_ok hstep
    cases htop.symm.trans hvalue
    have hstored : later.globals[slot]? = some (some stored) := by
      rw [hset, Array.getElem?_setIfInBounds_self, if_pos (hruns.size ▸ hslot)]
    -- and what is left of the run keeps it
    obtain ⟨_, _, _, total, result, hhalts, _⟩ := hsound.start hcode
    obtain ⟨left, hrest⟩ := hhalts.rest (hreaches.trans (.next hstep (.here later)))
    have hlater : Moment.Numbered (.running (session.withDraft draft) later) :=
      ⟨_, code, (hruns.step.at_ok hstep).2⟩
    obtain ⟨hnumbered, hkeeps⟩ := hlater.keeps (session.passes_halts hrest)
    rw [hsound.enter_of_halts hcode hhalts]
    refine ⟨slot, hnumbered, ?_, hkeeps slot stored hstored⟩
    have hscopes : (session.concluded draft result).2.scopes = draft.scopes := by
      cases result <;> rfl
    rw [hscopes, find?_bindBuiltins hbuiltin]
    exact hfind

/-- Spec §E10, names of earlier lines stay visible. Assumes: the session is reachable; the name is
not that of a provided function (`hbuiltin`); a `let` of it outside of functions has stored a value,
and nothing behind it in its piece binds the name again (`hstores`, `hname`); and the later session
was come to by any inputs, failing ones among them, that have no `let` of the name outside of
functions (`hlater`). Then the value is what the name comes to: an input that only reads the name
answers it, and every program pushes it wherever it reads the name outside of functions. -/
theorem Reachable.keeps_name {earlier rest : List Stmt} {value : Expr} (h : session.Reachable)
    (hbuiltin : ∀ builtin : Builtin, builtin.name ≠ name)
    (hname : ∀ other, .bind name other ∉ value.outside ++ Stmt.outsideAll rest)
    (hstores : session.Stores earlier name value rest stored)
    (hlater : (session.enter ⟨earlier ++ .bind name value :: rest⟩).2.Later name later) :
    (later.enter (reading name)).1 = ⟨.ok (some stored), ""⟩ ∧
    ∀ (program : Program) (bytecode : Bytecode) (compiled : Session) (start count : Nat)
      (draft : Draft) (machine : Machine),
      (∀ other, .bind name other ∉ Stmt.outsideAll program.statements) →
      later.compile program = (.ok bytecode, compiled) →
      Passage.Within ⟨.expr (.ident name), start, draft⟩ (later.passage program) →
      (Machine.new bytecode compiled.globals compiled.serial).Reaches count machine →
      machine.callers = #[] → machine.frame.ip = start →
      Run.step machine = Run.goOn (Run.push stored) (machine.advance 3) := by
  have hsession : session.Numbered := h.moment.numbered
  obtain ⟨slot, hhas⟩ := hstores.has hsession hbuiltin hname
  have hhas := hlater.has hhas
  refine ⟨?_, fun program bytecode compiled start count draft machine hother hcompile hwithin
    hreaches hcallers hip ↦ hhas.reads hother hcompile hwithin hreaches hcallers hip⟩
  rw [hhas.numbered.sound.enter_reading_global hhas.name hhas.slot_lt, hhas.value]
  rfl

/-- A `let` of an integer in a new session stores it. -/
theorem stores_int (name : String) (value : Int64) :
    Stores {} [] name (.int value) [] (.integer value) := by
  let middle := (Builder.resume (Session.scopes {}) (Session.constants {})).draft
  let draft : Draft := ⟨#[.integer value], (middle.scopes.define name).2⟩
  let code : List Instruction := [⟨.constant, [0]⟩, ⟨.setGlobal, [0]⟩]
  let machine := (Session.start {} code draft).advance 3
  have hcode : Stmt.assembleAll [.bind name (.int value)] .discard 0 middle = .ok code draft := rfl
  have hfound : machine.constants[0]? = some (.integer value) := rfl
  have hconstant : Run.constant? 0 machine = .ok (some (.integer value)) machine :=
    congrArg (EStateM.Result.ok · machine) hfound
  have hload : Run.loadConstant 0 machine = Run.push (.integer value) machine := by
    rw [Run.loadConstant, bind_of_ok hconstant]
  have hfits : Instruction.Fits ⟨.constant, [0]⟩ := .cons (by decide) .nil
  obtain ⟨hset, stack, hshows, hpushed⟩ := start_pushes hfits rfl hload
  let pushed : Machine := { machine with stack := stack, sp := 1 }
  have hloaded : Loaded pushed.frame.routine.code pushed.frame.ip [⟨.setGlobal, [0]⟩] := hset
  have hshows : Shows (pushed.advance 3).stack ([] ++ [some (.integer value)]) := hshows
  obtain ⟨cleared, hpop, _⟩ := Run.pop_of_shows hshows rfl
  have hwrite : Run.writeGlobal 0 (.integer value)
      { pushed.advance 3 with stack := cleared, sp := 0 } = .ok () _ :=
    if_pos (by
      change 0 < (Machine.resize globalsSize #[]).size
      rw [Machine.size_resize]
      decide)
  have hstep : ∃ later, Run.step pushed = .ok .running later := by
    rw [Run.step_eq_perform hloaded (.cons (by decide) .nil)]
    exact ⟨_, bind_of_ok ((bind_of_ok hpop).trans hwrite)⟩
  obtain ⟨later, hstep⟩ := hstep
  have hcompile : Session.compile {} ⟨[] ++ .bind name (.int value) :: []⟩ =
      (.ok ⟨(encodeAll code).toArray, draft.constants⟩, Session.withDraft {} draft) := by
    rw [compile_eq]
    rfl
  have htop : pushed.stackTop = some (.integer value) := by
    have hfirst : stack[0]? = some (some (.integer value)) := hshows.getElem? Nat.zero_lt_one
    change stack[0]?.join = _
    rw [hfirst]
    rfl
  exact .intro rfl rfl hcompile (.next hpushed (.here pushed)) rfl rfl htop hstep

/-- A name is read behind a piece that failed. -/
theorem keeps_name_failing : ∃ middle later : Session,
    (Session.enter {} ⟨[.bind "a" (.int 1)]⟩).2 = middle ∧
    (middle.enter (failing "b")).2 = later ∧
    (∀ builtin : Builtin, builtin.name ≠ "a") ∧
    (∀ other, .bind "a" other ∉ (Expr.int 1).outside ++ Stmt.outsideAll []) ∧
    Stores {} [] "a" (.int 1) [] (.integer 1) ∧ middle.Later "a" later ∧
    (later.enter (reading "a")).1 = ⟨.ok (some (.integer 1)), ""⟩ ∧
    ∃ bytecode compiled, later.compile (reading "a") = (.ok bytecode, compiled) ∧
      let start := Machine.new bytecode compiled.globals compiled.serial
      Run.step start = Run.goOn (Run.push (.integer 1)) (start.advance 3) := by
  let middle := (Session.enter {} ⟨[.bind "a" (.int 1)]⟩).2
  let later := (middle.enter (failing "b")).2
  have hbuiltin : ∀ builtin : Builtin, builtin.name ≠ "a" := by
    intro builtin
    cases builtin <;> decide
  have hname : ∀ other, .bind "a" other ∉ (Expr.int 1).outside ++ Stmt.outsideAll [] := by
    simp [Expr.outside, Stmt.outsideAll]
  have hother : ∀ other, .bind "a" other ∉ Stmt.outsideAll (failing "b").statements := by
    simp [failing, Stmt.outsideAll, Stmt.outside, Expr.outside]
  have hreading : ∀ other, .bind "a" other ∉ Stmt.outsideAll (reading "a").statements := by
    simp [reading, Stmt.outsideAll, Stmt.outside, Expr.outside]
  have hlater : middle.Later "a" later := .enter .here hother
  have hstores := stores_int "a" 1
  obtain ⟨hread, hpushes⟩ := Reachable.new.keeps_name hbuiltin hname hstores hlater
  refine ⟨middle, later, rfl, rfl, hbuiltin, hname, hstores, hlater, hread, ?_⟩
  cases hcompile : later.compile (reading "a") with
  | mk result compiled =>
    cases result with
    | error error =>
      rw [Session.enter, hcompile] at hread
      cases hread
    | ok bytecode =>
      refine ⟨bytecode, compiled, rfl, ?_⟩
      let draft := (later.passage (reading "a")).draft
      let stmt : Passage := ⟨.stmt (.eval (.ident "a")) .discard, 0, draft⟩
      have houter : (later.passage (reading "a")).Holds stmt := .here 0 _ _ 0 draft
      have hinner : stmt.Holds ⟨.expr (.ident "a"), 0, draft⟩ := .here 0 _ _ 0 draft
      exact hpushes _ _ _ 0 0 draft _ hreading hcompile (.tail (.single houter) hinner) (.here _)
        rfl rfl

/-! ### Names of provided functions -/

/-- The name of a provided function comes to that function, whatever was bound to it before. -/
theorem Sound.enter_reading_builtin (h : session.Sound) (builtin : Builtin) :
    (session.enter (reading builtin.name)).1 = ⟨.ok (some (.builtin builtin)), ""⟩ := by
  have hindex : builtin.symbol.index < globalsSize := by
    cases builtin <;> decide
  rw [h.enter_reading, read, Scopes.provides_bindBuiltins session.scopes builtin]
  dsimp only
  rw [if_pos hindex, Symbol.fetch]
  cases builtin <;> rfl

/-- A `let` stores a value for the name of a provided function, and the next piece does not see it.
-/
theorem enter_reading_provided : ∃ popped output middle,
    Session.enter {} ⟨[.bind "len" (.int 5)]⟩ = (⟨.ok popped, output⟩, middle) ∧
      Stores {} [] "len" (.int 5) [] (.integer 5) ∧
      (middle.enter (reading "len")).1 = ⟨.ok (some (.builtin .len)), ""⟩ := by
  obtain ⟨world, hworld⟩ : ∃ world, Program.evaluate ⟨[.bind "len" (.int 5)]⟩ = .ok () world :=
    ⟨_, rfl⟩
  obtain ⟨popped, middle, henter⟩ := enter_eq_ok_of_evaluate (by decide) (by decide +kernel) hworld
  have hmiddle := Reachable.enter .new ⟨[.bind "len" (.int 5)]⟩
  rw [henter] at hmiddle
  exact ⟨popped, _, middle, henter, stores_int "len" 5, hmiddle.sound.enter_reading_builtin .len⟩

end Session

end StackScript
