import StackScript.Proofs.Machine.Stack
import StackScript.Proofs.Session.Pieces

/-!
What a name comes to between the pieces of a session. A piece that only reads a name yields the
value of its global or the provided function, and fails if there is neither
(`Session.Sound.enter_reading`). Statements keep what a name stands for, even if they do not
compile, unless there is a `let` of that name among them outside of functions
(`Session.Sound.find?_assembled`).
-/

set_option autoImplicit false
set_option relaxedAutoImplicit false

namespace StackScript

open Instruction (size encodeAll)

theorem Machine.join_getElem?_resize {size slot : Nat} {slots : Array (Option Value)}
    (h : slot < size) : (resize size slots)[slot]?.join = slots[slot]?.join := by
  unfold resize
  rw [Array.getElem?_append, Array.size_shrink]
  split
  · next hslot =>
    have hinside : slot < slots.size := by omega
    rw [Array.shrink_eq_take, Array.getElem?_extract]
    simp [h, hinside]
  · next hslot =>
    have hbeyond : slots.size ≤ slot := by omega
    rw [Array.getElem?_replicate, Array.getElem?_eq_none hbeyond]
    split <;> rfl

/-- What a symbol stands for outside of functions. -/
def Symbol.fetch (globals : Array (Option Value)) (symbol : Symbol) : Except RunError Value :=
  match symbol.place with
  | .global =>
    match globals[symbol.index]?.join with
    | some value => .ok value
    | none => .error (.uninitializedGlobal symbol.index)
  | _ =>
    match Builtin.ofIndex? symbol.index with
    | some builtin => .ok (.builtin builtin)
    | none => .error (.unknownBuiltin symbol.index)

namespace Session

variable {session after : Session} {program : Program} {draft : Draft}

/-! ### Running the code that reads a symbol -/

/-- Code whose first instruction pushes a value. -/
theorem start_pushes {instruction : Instruction} {rest : List Instruction} {action : Run Unit}
    {value : Value} (hfits : instruction.Fits) (hperform : Run.perform instruction = Run.goOn action)
    (haction : let advanced := (session.start (instruction :: rest) draft).advance instruction.length
      action advanced = Run.push value advanced) :
    let advanced := (session.start (instruction :: rest) draft).advance instruction.length
    Loaded advanced.frame.routine.code advanced.frame.ip rest ∧ ∃ stack, Shows stack [some value] ∧
      Run.step (session.start (instruction :: rest) draft) =
        .ok .running { advanced with stack := stack, sp := 1 } := by
  intro advanced
  let machine := session.start (instruction :: rest) draft
  have hcode : Loaded machine.frame.routine.code 0 ([instruction] ++ rest) :=
    ⟨[], [], by simp [machine, Session.start, Machine.new], rfl⟩
  have hnone : Shows advanced.stack [] := ⟨Array.size_replicate, List.nil_prefix⟩
  obtain ⟨stack, hpush, hshows⟩ := Run.push_of_shows hnone rfl (by decide) value
  refine ⟨?_, stack, hshows, ?_⟩
  · have hright := hcode.right
    rwa [Instruction.size_cons, Instruction.size_nil, Nat.add_zero] at hright
  · rw [Run.step_eq_perform hcode.left hfits, hperform]
    exact bind_of_ok (haction.trans hpush)

/-- Code that yields a value, which is then discarded. -/
theorem start_halts {instruction : Instruction} {action : Run Unit}
    {fetched : Except RunError Value} (hfits : instruction.Fits)
    (hperform : Run.perform instruction = Run.goOn action)
    (haction : ∀ machine : Machine,
      machine.globals = Machine.resize globalsSize session.globals →
        action machine = match fetched with
          | .ok value => Run.push value machine
          | .error error => .error error machine) :
    ∃ count last, last.output = "" ∧ match fetched with
      | .ok value => last.lastPopped = some value ∧
        (session.start [instruction, ⟨.pop, []⟩] draft).Halts count (.ok () last)
      | .error error =>
        (session.start [instruction, ⟨.pop, []⟩] draft).Halts count (.error error last) := by
  let machine := session.start [instruction, ⟨.pop, []⟩] draft
  let advanced := machine.advance instruction.length
  have haction := haction advanced rfl
  cases fetched with
  | error error =>
    have hcode : Loaded machine.frame.routine.code 0 ([instruction] ++ [⟨.pop, []⟩]) :=
      ⟨[], [], by simp [machine, Session.start, Machine.new], rfl⟩
    refine ⟨0, advanced, rfl, machine, .here machine, .failed ?_⟩
    rw [Run.step_eq_perform hcode.left hfits, hperform]
    exact bind_of_error haction
  | ok value =>
    obtain ⟨hlast, stack, hshows, hpushed⟩ := start_pushes hfits hperform haction
    let pushed : Machine := { advanced with stack := stack, sp := 1 }
    have hshows : Shows (pushed.advance 1).stack ([] ++ [some value]) := hshows
    obtain ⟨cleared, hpop, _⟩ := Run.pop_of_shows hshows rfl
    let popped : Machine :=
      { pushed.advance 1 with stack := cleared, sp := 0, lastPopped := some value }
    have hpopped : Run.step pushed = .ok .running popped := by
      have hlast : Loaded pushed.frame.routine.code pushed.frame.ip [⟨.pop, []⟩] := hlast
      rw [Run.step_eq_perform hlast .nil]
      exact bind_of_ok (bind_of_ok hpop)
    have hend : popped.frame.ip = popped.frame.routine.code.size := by
      simp [popped, pushed, advanced, Machine.advance, machine, Session.start, Machine.new,
        Instruction.length]
      rfl
    have hdone : Run.step popped = .ok .finished popped := Run.step_at_end hend
    exact ⟨2, popped, rfl, rfl, popped, .next hpushed (.next hpopped (.here popped)),
      .finished hdone⟩

/-! ### Reading a name -/

/-- What a name comes to outside of functions. -/
def read (session : Session) (name : String) : Except EvalError Value :=
  match (Builder.bindBuiltins session.scopes).current.find? name with
  | none => .error (.compilation (.undefinedVariable name))
  | some symbol =>
    if symbol.index < globalsSize then (symbol.fetch session.globals).mapError .runtime
    else .error (.compilation (.operandTooLarge .getGlobal symbol.index))

theorem resolve_outside (name : String) {draft : Draft} (houter : draft.scopes.outer = []) :
    Assembly.resolve name draft =
      match draft.scopes.current.find? name with
      | none => .error (.undefinedVariable name) draft
      | some symbol => .ok symbol draft := by
  obtain ⟨constants, current, outer⟩ := draft
  obtain rfl : outer = [] := houter
  simp only [Assembly.resolve, Scopes.resolve, Scopes.resolveFrom]
  cases current.find? name <;> rfl

/-- The code of a program that only reads a name. -/
theorem assembleAll_ident (name : String) {draft : Draft} (houter : draft.scopes.outer = []) :
    Stmt.assembleAll [.eval (.ident name)] .discard 0 draft =
      match draft.scopes.current.find? name with
      | none => .error (.undefinedVariable name) draft
      | some symbol => (do
        let code ← Assembly.load symbol
        return code ++ [⟨.pop, []⟩] : Assembly (List Instruction)) draft := by
  simp only [Stmt.assembleAll, Stmt.assemble, Expr.assemble, List.isEmpty_nil, if_true, bind_assoc,
    pure_bind, Ending.instructions, List.append_nil]
  have hresolve := resolve_outside name houter
  cases hfind : draft.scopes.current.find? name with
  | none =>
    rw [hfind] at hresolve
    exact bind_of_error hresolve
  | some symbol =>
    rw [hfind] at hresolve
    exact bind_of_ok hresolve

/-- A symbol outside of functions is for a global or a provided function. -/
theorem Sound.within {name : String} {symbol : Symbol} (h : session.Sound)
    (hfind : (Builder.bindBuiltins session.scopes).current.find? name = some symbol) :
    symbol.place = .global ∨
      ∃ builtin : Builtin, symbol.place = .builtin ∧ symbol.index = builtin.index := by
  obtain ⟨hbounded, houter, _⟩ := Scopes.bindBuiltins_bounded h.draft.scopes h.outer
  have hwithin := Scope.Bounded.within hbounded symbol (Scope.mem_of_find? hfind)
  rw [houter] at hwithin
  unfold Symbol.Within at hwithin
  split at hwithin
  · next hplace => exact .inl hplace
  · cases hwithin
  · next hplace =>
    cases hbuiltin : Builtin.ofIndex? symbol.index with
    | none =>
      have hbeyond := Builtin.ofIndex?_eq_none_iff.mp hbuiltin
      exact absurd hwithin (Nat.not_lt_of_le hbeyond)
    | some builtin => exact .inr ⟨builtin, hplace, (Builtin.index_of_ofIndex? hbuiltin).symm⟩
  · cases hwithin
  · cases hwithin

/-- The instruction for a symbol pushes what the symbol stands for. -/
theorem Sound.loads {name : String} {symbol : Symbol} (h : session.Sound)
    (hfind : (Builder.bindBuiltins session.scopes).current.find? name = some symbol)
    (hindex : symbol.index < globalsSize) (draft : Draft) :
    ∃ instruction action, Assembly.load symbol draft = .ok [instruction] draft ∧
      instruction.Fits ∧ Run.perform instruction = Run.goOn action ∧
      ∀ machine : Machine, machine.globals = Machine.resize globalsSize session.globals →
        action machine = match symbol.fetch session.globals with
          | .ok value => Run.push value machine
          | .error error => .error error machine := by
  rcases h.within hfind with hplace | ⟨builtin, hplace, hbuiltin⟩
  · refine ⟨⟨.getGlobal, [symbol.index]⟩, Run.loadGlobal symbol.index, ?_, .cons hindex .nil, rfl,
      fun machine hglobals ↦ ?_⟩
    · have hfits : Instruction.oversized? Opcode.getGlobal.widths [symbol.index] = none :=
        if_pos hindex
      simp only [Assembly.load, hplace, Assembly.instruction, hfits]
    · have hslot : symbol.index < machine.globals.size := by
        rw [hglobals, Machine.size_resize]
        exact hindex
      have hread : Run.readGlobal symbol.index machine =
          .ok session.globals[symbol.index]?.join machine := by
        unfold Run.readGlobal
        rw [← Machine.join_getElem?_resize hindex, ← hglobals, Array.getElem?_eq_getElem hslot]
        rfl
      unfold Run.loadGlobal
      rw [bind_of_ok hread, Symbol.fetch, hplace]
      cases session.globals[symbol.index]?.join <;> rfl
  · have hsmall : symbol.index < Opcode.Width.one.bound := by
      rw [hbuiltin]
      cases builtin <;> decide
    refine ⟨⟨.getBuiltin, [symbol.index]⟩, Run.loadBuiltin symbol.index, ?_, .cons hsmall .nil, rfl,
      fun machine _ ↦ ?_⟩
    · have hfits : Instruction.oversized? Opcode.getBuiltin.widths [symbol.index] = none :=
        if_pos hsmall
      simp only [Assembly.load, hplace, Assembly.instruction, hfits]
    · unfold Run.loadBuiltin
      rw [Symbol.fetch, hplace, hbuiltin, Builtin.ofIndex?_index]

/-- A program that only reads a name. -/
def reading (name : String) : Program :=
  ⟨[.eval (.ident name)]⟩

/-- The answer to a piece that only reads a name. -/
theorem Sound.enter_reading (h : session.Sound) (name : String) :
    (session.enter (reading name)).1 = ⟨(session.read name).map some, ""⟩ := by
  let draft := (Builder.resume session.scopes session.constants).draft
  have houter : draft.scopes.outer = [] :=
    (Scopes.bindBuiltins_bounded h.draft.scopes h.outer).2.1
  have hcode := assembleAll_ident name houter
  have hfails : ∀ error, Stmt.assembleAll [.eval (.ident name)] .discard 0 draft =
      .error error draft →
      (session.enter (reading name)).1 = ⟨.error (.compilation error), ""⟩ := by
    intro error herror
    have henter : session.enter (reading name) = _ := enter_of_error herror
    rw [henter]
  unfold Session.read
  cases hfind : (Builder.bindBuiltins session.scopes).current.find? name with
  | none =>
    have hfind : draft.scopes.current.find? name = none := hfind
    rw [hfind] at hcode
    exact hfails _ hcode
  | some symbol =>
    have hfound : draft.scopes.current.find? name = some symbol := hfind
    rw [hfound] at hcode
    dsimp only at hcode ⊢
    split
    · next hindex =>
      obtain ⟨instruction, action, hload, hfits, hperform, haction⟩ := h.loads hfind hindex draft
      rw [bind_of_ok hload] at hcode
      have hcode : Stmt.assembleAll (reading name).statements .discard 0
          (Builder.resume session.scopes session.constants).draft =
            .ok [instruction, ⟨.pop, []⟩] draft := hcode
      obtain ⟨count, last, houtput, hends⟩ := start_halts hfits hperform haction
      cases hfetch : symbol.fetch session.globals with
      | ok value =>
        rw [hfetch] at hends
        rw [h.enter_of_halts hcode hends.2]
        simp only [concluded, houtput, hends.1]
        rfl
      | error error =>
        rw [hfetch] at hends
        rw [h.enter_of_halts hcode hends]
        simp only [concluded, houtput]
        rfl
    · next hindex =>
      have hplace : symbol.place = .global := by
        rcases h.within hfind with hplace | ⟨builtin, _, hbuiltin⟩
        · exact hplace
        · refine absurd ?_ hindex
          rw [hbuiltin]
          cases builtin <;> decide
      have hlarge : Instruction.oversized? Opcode.getGlobal.widths [symbol.index] =
          some symbol.index := if_neg hindex
      have hload : Assembly.load symbol draft =
          .error (.operandTooLarge .getGlobal symbol.index) draft := by
        simp only [Assembly.load, hplace, Assembly.instruction, hlarge]
      rw [bind_of_error hload] at hcode
      exact hfails _ hcode

theorem Sound.enter_reading_global (h : session.Sound) {name : String} {slot : Nat}
    (hfind : (Builder.bindBuiltins session.scopes).current.find? name = some ⟨name, .global, slot⟩)
    (hslot : slot < globalsSize) :
    (session.enter (reading name)).1 =
      match session.globals[slot]?.join with
      | some value => ⟨.ok (some value), ""⟩
      | none => ⟨.error (.runtime (.uninitializedGlobal slot)), ""⟩ := by
  rw [h.enter_reading, read, hfind]
  dsimp only
  rw [if_pos hslot, Symbol.fetch]
  dsimp only
  cases session.globals[slot]?.join <;> rfl

/-! ### Pieces that do not compile -/

/-- What a name stands for once the provided functions are bound hangs on what it stood for. -/
theorem find?_bindBuiltins_congr {scopes other : Scopes} {name : String}
    (h : scopes.current.find? name = other.current.find? name) :
    (Builder.bindBuiltins scopes).current.find? name =
      (Builder.bindBuiltins other).current.find? name := by
  unfold Builder.bindBuiltins
  induction Builtin.all generalizing scopes other with
  | nil => exact h
  | cons builtin rest ih =>
    refine ih ?_
    have hbind := Scope.find?_bind scopes.current builtin.symbol name
    have hother := Scope.find?_bind other.current builtin.symbol name
    rw [h, ← hother] at hbind
    exact hbind

/-- A name that no provided function has means the same once these are bound. -/
theorem find?_bindBuiltins {scopes : Scopes} {name : String}
    (h : ∀ builtin : Builtin, builtin.name ≠ name) :
    (Builder.bindBuiltins scopes).current.find? name = scopes.current.find? name := by
  unfold Builder.bindBuiltins
  induction Builtin.all generalizing scopes with
  | nil => rfl
  | cons builtin rest ih =>
    refine ih.trans ?_
    exact (Scope.find?_bind scopes.current builtin.symbol name).trans (if_neg (h builtin).symm)

/-- A program does not compile if and only if it cannot be assembled. -/
theorem Sound.enter_eq_compilation_iff (h : session.Sound) {error : CompileError}
    {output : String} :
    session.enter program = (⟨.error (.compilation error), output⟩, after) ↔
      ∃ draft, Stmt.assembleAll program.statements .discard 0
          (Builder.resume session.scopes session.constants).draft = .error error draft ∧
        output = "" ∧ session.withDraft draft = after := by
  constructor
  · intro henter
    cases hcode : Stmt.assembleAll program.statements .discard 0
        (Builder.resume session.scopes session.constants).draft with
    | ok code draft =>
      obtain ⟨_, _, _, count, result, hhalts, _⟩ := h.start hcode
      have hanswer := henter.symm.trans (h.enter_of_halts hcode hhalts)
      cases result <;> cases hanswer
    | error other draft =>
      cases henter.symm.trans (enter_of_error hcode)
      exact ⟨draft, rfl, rfl, rfl⟩
  · rintro ⟨draft, hcode, rfl, rfl⟩
    exact enter_of_error hcode

/-- What a name stands for is kept by statements, whether they can be assembled or not, unless a
`let` among those outside of functions binds it. -/
theorem Sound.find?_assembled (h : session.Sound) {stmts : List Stmt} {name : String}
    (hname : ∀ value, .bind name value ∉ Stmt.outsideAll stmts) :
    Ends (Stmt.assembleAll stmts .discard 0) (Builder.resume session.scopes session.constants).draft
      (fun _ draft ↦ (Builder.bindBuiltins draft.scopes).current.find? name =
        (Builder.bindBuiltins session.scopes).current.find? name)
      fun _ draft ↦ (Builder.bindBuiltins draft.scopes).current.find? name =
        (Builder.bindBuiltins session.scopes).current.find? name := by
  let resumed := (Builder.resume session.scopes session.constants).draft
  have houter : resumed.scopes.outer = [] :=
    (Scopes.bindBuiltins_bounded h.draft.scopes h.outer).2.1
  -- the provided functions are bound already, so that binding them twice is binding them once
  have htwice := (Scopes.provides_bindBuiltins session.scopes).alike_bindBuiltins
  have hkept : ∀ draft, Draft.Spared [name] resumed draft →
      (Builder.bindBuiltins draft.scopes).current.find? name =
        (Builder.bindBuiltins session.scopes).current.find? name := by
    intro draft hspared
    have hsame := hspared.kept name (List.mem_singleton.mpr rfl)
    rw [Scopes.global, hspared.scopes.outer_eq_nil.mpr houter, Scopes.global, houter] at hsame
    exact (find?_bindBuiltins_congr hsame).trans (htwice.current.find name).symm
  have hspares := Stmt.assembleAll_spares stmts True
    (fun _ ↦ Stmt.spares_of_not_bound hname) .discard (fun h ↦ h.2.elim) 0 resumed fun _ ↦ trivial
  exact hspares.mono (fun _ draft hdone ↦ hkept draft hdone.1) fun _ draft ↦ hkept draft

/-- A session in which one name was bound. -/
theorem enter_binding : ∃ popped output middle,
    Session.enter {} ⟨[.bind "a" (.int 1)]⟩ = (⟨.ok popped, output⟩, middle) ∧
      middle.Reachable ∧ (middle.enter (reading "a")).1 = ⟨.ok (some (.integer 1)), ""⟩ ∧
      middle.scopes = ((Builder.bindBuiltins {}).define "a").2 ∧
      middle.constants = #[.integer 1] ∧ middle.globals[1]?.join = none := by
  obtain ⟨world, hworld, hbound, hfree⟩ : ∃ world,
      Program.evaluate ⟨[.bind "a" (.int 1)]⟩ = .ok () world ∧
        world.globals 0 = some (.integer 1) ∧ world.globals 1 = none := ⟨_, rfl, rfl, rfl⟩
  obtain ⟨code, draft, last, hcompletes, hmatches⟩ :=
    completes_of_evaluate (by decide) (by decide +kernel) hworld
  let middle := settled {} draft last
  have henter : Session.enter {} ⟨[.bind "a" (.int 1)]⟩ =
      (⟨.ok last.lastPopped, last.output⟩, middle) :=
    sound_new.enter_eq_ok_iff.mpr ⟨code, draft, last, hcompletes, rfl, rfl, rfl⟩
  have hreachable : middle.Reachable := by
    have hnext := Reachable.enter .new ⟨[.bind "a" (.int 1)]⟩
    rwa [henter] at hnext
  obtain ⟨hscopes, hconstants⟩ : middle.scopes = ((Builder.bindBuiltins {}).define "a").2 ∧
      middle.constants = #[.integer 1] := by
    obtain ⟨-, rfl⟩ := EStateM.Result.ok.inj hcompletes.assembled
    exact ⟨rfl, rfl⟩
  have hfind : (Builder.bindBuiltins middle.scopes).current.find? "a" =
      some ⟨"a", .global, 0⟩ := by
    rw [hscopes]
    rfl
  have hglobals : ∀ slot, Option.Rel (Value.Compiled draft.constants) (world.globals slot)
      middle.globals[slot]?.join := hmatches.globals
  refine ⟨_, _, middle, henter, hreachable, ?_, hscopes, hconstants, ?_⟩
  · have hvalue := hglobals 0
    rw [hreachable.sound.enter_reading_global hfind (by decide)]
    generalize middle.globals[0]?.join = content at hvalue ⊢
    rw [hbound] at hvalue
    cases hvalue with
    | some hsame =>
      cases hsame
      rfl
  · have hvalue := hglobals 1
    generalize middle.globals[1]?.join = content at hvalue ⊢
    rw [hfree] at hvalue
    cases hvalue
    rfl

/-- A program that does not compile. -/
def failing (name : String) : Program :=
  ⟨[.bind name (.ident "missing")]⟩

/-- A `let` in a piece that does not compile hides what its name stood for. -/
theorem enter_reading_hidden : ∃ popped output middle after,
    Session.enter {} ⟨[.bind "a" (.int 1)]⟩ = (⟨.ok popped, output⟩, middle) ∧
      (middle.enter (reading "a")).1 = ⟨.ok (some (.integer 1)), ""⟩ ∧
      middle.enter (failing "a") =
        (⟨.error (.compilation (.undefinedVariable "missing")), ""⟩, after) ∧
      (after.enter (reading "a")).1 = ⟨.error (.runtime (.uninitializedGlobal 1)), ""⟩ := by
  obtain ⟨popped, output, middle, henter, hreachable, hread, hscopes, hconstants, hunset⟩ :=
    enter_binding
  let draft : Draft := ⟨middle.constants, ((Builder.bindBuiltins middle.scopes).define "a").2⟩
  have hfails : middle.enter (failing "a") =
      (⟨.error (.compilation (.undefinedVariable "missing")), ""⟩, middle.withDraft draft) := by
    refine enter_of_error ?_
    simp only [draft, hscopes, hconstants]
    rfl
  have hlast := hreachable.enter (failing "a")
  rw [hfails] at hlast
  refine ⟨popped, output, middle, _, henter, hread, hfails, ?_⟩
  have hfind : (Builder.bindBuiltins draft.scopes).current.find? "a" =
      some ⟨"a", .global, 1⟩ := by
    simp only [draft, hscopes]
    rfl
  have hglobal : (middle.withDraft draft).globals[1]?.join = none := hunset
  rw [hlast.sound.enter_reading_global hfind (by decide), hglobal]

end Session

end StackScript
