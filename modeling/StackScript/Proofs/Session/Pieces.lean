import StackScript.Proofs.Machine.Relocation
import StackScript.Proofs.Program.Correct
import StackScript.Proofs.Program.Levels
import StackScript.Proofs.Program.Outside
import StackScript.Proofs.Session.Reachable

/-!
A program given in pieces. If its first piece does not return and leaves the names of the provided
functions alone, the second piece is compiled with the names and constants that it would have been
compiled with, and it runs on a machine that differs from the one for the whole only in what was
left behind. So the pieces come to the same as the whole (`Session.Reachable.enter_append`).
-/

set_option autoImplicit false
set_option relaxedAutoImplicit false

namespace StackScript

open Instruction (size encodeAll)

/-! ### Provided functions -/

def Builtin.symbol (builtin : Builtin) : Symbol :=
  ⟨builtin.name, .builtin, builtin.index⟩

theorem Builtin.mem_all (builtin : Builtin) : builtin ∈ Builtin.all := by
  cases builtin <;> decide

theorem Builtin.eq_of_name_eq {builtin other : Builtin} (h : builtin.name = other.name) :
    builtin = other := by
  have hnames : ∀ builtin ∈ Builtin.all, ∀ other ∈ Builtin.all,
      builtin.name = other.name → builtin = other := by decide
  exact hnames builtin builtin.mem_all other other.mem_all h

namespace Scopes

/-- The names of the provided functions stand for them. -/
def Provides (scopes : Scopes) : Prop :=
  ∀ builtin : Builtin, scopes.current.find? builtin.name = some builtin.symbol

theorem find?_defineBuiltin {scopes : Scopes} {builtin : Builtin}
    (h : scopes.current.find? builtin.name = some builtin.symbol) (other : Builtin) :
    (scopes.defineBuiltin other.index other.name).2.current.find? builtin.name =
      some builtin.symbol := by
  refine (Scope.find?_bind scopes.current other.symbol builtin.name).trans ?_
  split
  · next hsame => rw [Builtin.eq_of_name_eq hsame]
  · exact h

theorem provides_bindBuiltins (scopes : Scopes) : (Builder.bindBuiltins scopes).Provides := by
  have hkept : ∀ (builtins : List Builtin) (scopes : Scopes) (builtin : Builtin),
      scopes.current.find? builtin.name = some builtin.symbol →
      (builtins.foldl (fun scopes builtin ↦ (scopes.defineBuiltin builtin.index builtin.name).2)
        scopes).current.find? builtin.name = some builtin.symbol := by
    intro builtins
    induction builtins with
    | nil => exact fun _ _ h ↦ h
    | cons other rest ih => exact fun _ builtin h ↦ ih _ builtin (find?_defineBuiltin h other)
  have hall : ∀ (builtins : List Builtin) (scopes : Scopes), ∀ builtin ∈ builtins,
      (builtins.foldl (fun scopes builtin ↦ (scopes.defineBuiltin builtin.index builtin.name).2)
        scopes).current.find? builtin.name = some builtin.symbol := by
    intro builtins
    induction builtins with
    | nil => exact fun _ _ hmem ↦ absurd hmem List.not_mem_nil
    | cons other rest ih =>
      intro scopes builtin hmem
      rcases List.mem_cons.mp hmem with rfl | hrest
      · refine hkept rest _ builtin ((Scope.find?_bind scopes.current builtin.symbol _).trans ?_)
        exact if_pos rfl
      · exact ih _ builtin hrest
  intro builtin
  exact hall Builtin.all scopes builtin builtin.mem_all

/-- Binding the provided functions anew changes nothing if their names stand for them already. -/
theorem Provides.alike_bindBuiltins {scopes : Scopes} (h : scopes.Provides) :
    scopes.Alike (Builder.bindBuiltins scopes) := by
  have hall : ∀ (builtins : List Builtin) (other : Scopes), scopes.Alike other →
      scopes.Alike (builtins.foldl
        (fun scopes builtin ↦ (scopes.defineBuiltin builtin.index builtin.name).2) other) := by
    intro builtins
    induction builtins with
    | nil => exact fun _ halike ↦ halike
    | cons builtin rest ih =>
      intro other halike
      refine ih _ ⟨⟨fun name ↦ ?_, halike.current.definitions, halike.current.captured⟩,
        halike.outer⟩
      refine Eq.trans ?_ (Scope.find?_bind other.current builtin.symbol name).symm
      split
      · next hsame => exact hsame ▸ h builtin
      · exact halike.current.find name
  exact hall Builtin.all scopes ⟨.refl _, List.forall₂_same.mpr fun around _ ↦ .refl around⟩

end Scopes

/-! ### Programs in two parts -/

/-- An instruction that neither returns nor jumps leads to the next one. -/
theorem Instruction.leadsOn_of_stays {instruction : Instruction} (hfits : instruction.Fits)
    (hstays : instruction.opcode.stays) (htarget : instruction.target? = none) :
    instruction.leadsOn := by
  obtain ⟨opcode, operands⟩ := instruction
  cases opcode
  case jump =>
    obtain ⟨target, rfl, _⟩ := hfits.eq_single rfl
    cases htarget
  case returnValue | ret => cases hstays
  all_goals rfl

theorem Stmt.assembleAll_discard_append (first second : List Stmt) (start : Nat) :
    Stmt.assembleAll (first ++ second) .discard start = do
      let done ← Stmt.assembleAll first .discard start
      let rest ← Stmt.assembleAll second .discard (start + size done)
      return done ++ rest := by
  cases second with
  | nil => simp [Stmt.assembleAll]
  | cons stmt rest => exact Stmt.assembleAll_append first (by simp) .discard start

/-- Statements are assembled in two parts as they are together, if the first ones do not return and
leave the names of the provided functions alone. -/
theorem Stmt.assembleAll_parts {first second : List Stmt} {draft later : Draft}
    {code : List Instruction}
    (hcode : Stmt.assembleAll (first ++ second) .discard 0 draft = .ok code later)
    (houter : draft.scopes.outer = []) (hprovides : draft.scopes.Provides)
    (hspares : ∀ stmt ∈ Stmt.outsideAll first, stmt.Spares (Builtin.all.map Builtin.name) True) :
    ∃ done middle rest other,
      Stmt.assembleAll first .discard 0 draft = .ok done middle ∧
      Stmt.assembleAll second .discard (size done) middle =
        .ok (rest.map (Instruction.shift (size done))) later ∧
      Stmt.assembleAll second .discard 0 (Builder.resume middle.scopes middle.constants).draft =
        .ok rest other ∧
      code = done ++ rest.map (Instruction.shift (size done)) ∧
      other.constants = later.constants ∧ ∀ instruction ∈ done, instruction.opcode.stays := by
  rw [Stmt.assembleAll_discard_append] at hcode
  obtain ⟨done, middle, hdone, hcode⟩ := bind_eq_ok_iff.mp hcode
  obtain ⟨moved, _, hmoved, ⟨⟩⟩ := bind_eq_ok_iff.mp hcode
  rw [Nat.zero_add] at hmoved
  have hfirst := (Stmt.assembleAll_spares first True (fun _ ↦ hspares) .discard (fun _ ↦ by decide) 0
    draft) fun _ ↦ trivial
  unfold Ends at hfirst
  rw [hdone] at hfirst
  obtain ⟨⟨hgrown, hkept⟩, hstays⟩ := hfirst
  have hglobal : ∀ scopes : Scopes, scopes.outer = [] → scopes.global = scopes.current := by
    intro scopes hnone
    rw [Scopes.global, hnone, List.getLastD_nil]
  have hprovided : middle.scopes.Provides := by
    intro builtin
    have hsame := hkept builtin.name (List.mem_map.mpr ⟨builtin, builtin.mem_all, rfl⟩)
    rw [hglobal _ (hgrown.outer_eq_nil.mpr houter), hglobal _ houter] at hsame
    exact hsame.trans (hprovides builtin)
  have halike : middle.Alike (Builder.resume middle.scopes middle.constants).draft :=
    ⟨rfl, hprovided.alike_bindBuiltins⟩
  obtain ⟨rest, other, hrest, hlater, rfl⟩ := Stmt.assembleAll_shift second .discard (size done) 0 _
    _ halike _ _ hmoved
  exact ⟨done, middle, rest, other, hdone, hmoved, hrest, rfl, hlater.constants.symm,
    hstays ⟨trivial, trivial⟩⟩

/-- Code of statements between other code. -/
theorem Stmt.sound_excerpt {stmts : List Stmt} {code : List Instruction} {draft later : Draft}
    (hcode : Stmt.assembleAll stmts .discard 0 draft = .ok code later)
    (before after : List Instruction) (printed : String)
    (hshifted : (∀ instruction ∈ code, instruction.Fits) →
      ∀ instruction ∈ code, (instruction.shift (size before)).Fits) :
    ∃ depth, depth (size code) = 0 ∧ Excerpt.Sound ⟨before, code, after, depth, printed⟩ := by
  have hnone : Stmt.depthAfter stmts .discard 0 = 0 := by simp [Stmt.depthAfter]
  have hlevels := ((Stmt.assembleAll_levels stmts (fun h : False ↦ h.elim) .discard 0 0
    draft).of_ok hcode).2
  rw [hnone] at hlevels
  obtain ⟨depth, _, hend, hdepths⟩ := hlevels.depths
  rw [Nat.zero_add] at hend hdepths
  exact ⟨depth, hend, hlevels.fits, hshifted hlevels.fits, hdepths⟩

theorem Machine.resize_of_size {size : Nat} {slots : Array (Option Value)} (h : slots.size = size) :
    resize size slots = slots := by
  subst h
  simp [resize]

namespace Session

/-! ### Pieces that succeed -/

/-- The machine for a program that was assembled. -/
def start (session : Session) (code : List Instruction) (draft : Draft) : Machine :=
  .new ⟨(encodeAll code).toArray, draft.constants⟩ session.globals session.serial

/-- The session after a run that left a machine behind. -/
def settled (session : Session) (draft : Draft) (last : Machine) : Session :=
  { session.withDraft draft with globals := last.globals, serial := last.serial }

/-- The program is assembled, and its run comes to an end. -/
structure Completes (session : Session) (program : Program) (code : List Instruction)
    (draft : Draft) (last : Machine) : Prop where
  assembled : Stmt.assembleAll program.statements .discard 0
    (Builder.resume session.scopes session.constants).draft = .ok code draft
  halts : ∃ count, (session.start code draft).Halts count (.ok () last)

variable {session after : Session} {program : Program} {code : List Instruction} {draft : Draft}

/-- The machine for a program that was assembled is in order. -/
theorem Sound.start (h : session.Sound) (hcode : Stmt.assembleAll program.statements .discard 0
      (Builder.resume session.scopes session.constants).draft = .ok code draft) :
    let machine := session.start code draft
    (session.withDraft draft).Sound ∧
      machine.Sound draft.constants draft.scopes.limits.globals machine.longestCode ∧
      CodeWithin draft.constants machine.longestCode ∧
      ∃ count result, machine.Halts count result ∧ Run.run machine = result := by
  intro machine
  have hcompiled := h.compile program
  rw [compile_eq, hcode] at hcompiled
  obtain ⟨hafter, _, hconstants, other, hbytes, hwell⟩ := hcompiled
  obtain ⟨count, _, result, hhalts, hrun, _⟩ := hafter.halts hconstants hbytes hwell
  exact ⟨hafter, hafter.sound_new hconstants hbytes hwell,
    machine.le_longestCode.2, count, result, hhalts, hrun⟩

/-- What comes of a program that was assembled, after its run. -/
def concluded (session : Session) (draft : Draft) :
    EStateM.Result RunError Machine Unit → Answer × Session
  | .ok _ last => (⟨.ok last.lastPopped, last.output⟩, session.settled draft last)
  | .error error last => (⟨.error (.runtime error), last.output⟩, session.settled draft last)

theorem run_eq_of_run {result : EStateM.Result RunError Machine Unit}
    (hrun : Run.run (session.start code draft) = result) :
    (session.withDraft draft).run ⟨(encodeAll code).toArray, draft.constants⟩ =
      session.concluded draft result := by
  have hsame : Run.run (.new ⟨(encodeAll code).toArray, draft.constants⟩
      (session.withDraft draft).globals (session.withDraft draft).serial) = result := hrun
  unfold Session.run
  rw [hsame]
  cases result <;> rfl

/-- The answer to a program that was assembled is what its machine halts with. -/
theorem Sound.enter_of_halts (h : session.Sound) {count : Nat}
    {result : EStateM.Result RunError Machine Unit}
    (hcode : Stmt.assembleAll program.statements .discard 0
      (Builder.resume session.scopes session.constants).draft = .ok code draft)
    (hhalts : (session.start code draft).Halts count result) :
    session.enter program = session.concluded draft result := by
  obtain ⟨_, _, _, more, other, hagain, hrun⟩ := h.start hcode
  obtain ⟨rfl, _⟩ := hagain.unique hhalts
  unfold Session.enter
  rw [compile_eq, hcode]
  exact run_eq_of_run hrun

theorem enter_of_error {error : CompileError} (hcode : Stmt.assembleAll program.statements .discard 0
      (Builder.resume session.scopes session.constants).draft = .error error draft) :
    session.enter program = (⟨.error (.compilation error), ""⟩, session.withDraft draft) := by
  unfold Session.enter
  rw [compile_eq, hcode]

/-- A program succeeds if and only if it is assembled and its run comes to an end. -/
theorem Sound.enter_eq_ok_iff (h : session.Sound) {popped : Option Value} {output : String} :
    session.enter program = (⟨.ok popped, output⟩, after) ↔
      ∃ code draft last, session.Completes program code draft last ∧ last.lastPopped = popped ∧
        last.output = output ∧ session.settled draft last = after := by
  constructor
  · intro henter
    cases hcode : Stmt.assembleAll program.statements .discard 0
        (Builder.resume session.scopes session.constants).draft with
    | error error draft => cases henter.symm.trans (enter_of_error hcode)
    | ok code draft =>
      obtain ⟨_, _, _, count, result, hhalts, _⟩ := h.start hcode
      have hanswer := henter.symm.trans (h.enter_of_halts hcode hhalts)
      cases result with
      | error error last => cases hanswer
      | ok _ last =>
        cases hanswer
        exact ⟨code, draft, last, ⟨hcode, count, hhalts⟩, rfl, rfl, rfl⟩
  · rintro ⟨code, draft, last, ⟨hcode, count, hhalts⟩, rfl, rfl, rfl⟩
    exact h.enter_of_halts hcode hhalts

/-! ### From piece to piece -/

variable {first rest : List Instruction} {later : Draft} {depth more : Nat → Nat}
  {middle other : Machine}

/-- The whole begins as its first piece does. -/
theorem alike_start (hconstants : Extends draft.constants later.constants) :
    Excerpt.Alike ⟨[], first, rest, depth, ""⟩ 0 0 (session.start (first ++ rest) later)
      (session.start first draft) := by
  let excerpt : Excerpt := ⟨[], first, rest, depth, ""⟩
  have hwhole : (session.start (first ++ rest) later).frame = excerpt.wholeFrame 0 := by
    have hsame : excerpt.wholeCode = first ++ rest := by
      simp [excerpt, Excerpt.wholeCode, Instruction.map_shift_zero]
    simp only [Excerpt.wholeFrame, hsame]
    rfl
  have hframes : excerpt.Frames 0 0 (session.start (first ++ rest) later).callers
      (session.start (first ++ rest) later).frame (session.start first draft).callers
      (session.start first draft).frame := by
    rw [hwhole]
    exact .top (Nat.zero_le _)
  exact ⟨0, {
    constants := hconstants
    globals := rfl
    globalsSize := Machine.size_resize _ _
    serial := rfl
    output := rfl
    popped := by rintro _ ⟨⟩
    wholeSp := rfl
    pieceSp := rfl
    room := Nat.le_refl 0
    stack := ⟨Array.size_replicate, Array.size_replicate, fun _ ↦ (absurd · (Nat.not_lt_zero _))⟩
    frames := hframes }⟩

/-- Behind the first piece, the whole goes on as the second piece begins. -/
theorem alike_settled {level sp : Nat}
    (h : Excerpt.Alike ⟨[], first, rest.map (.shift (size first)), depth, ""⟩ level sp middle other)
    (hended : Excerpt.Ended other) (hempty : sp = 0)
    (hconstants : middle.constants = later.constants) :
    Excerpt.Alike ⟨first, rest, [], more, other.output⟩ 0 0 middle
      ((session.settled draft other).start rest later) := by
  let excerpt : Excerpt := ⟨first, rest, [], more, other.output⟩
  let second := (session.settled draft other).start rest later
  obtain ⟨hcallers, hframe, _⟩ := h.behind hended
  obtain ⟨mark, h⟩ := h
  subst hempty
  have hsame : middle.frame = excerpt.wholeFrame 0 := by
    rw [hframe]
    simp [excerpt, Excerpt.wholeFrame, Excerpt.wholeCode, Instruction.map_shift_zero]
  have hframes : excerpt.Frames 0 0 middle.callers middle.frame second.callers second.frame := by
    rw [hcallers, hsame]
    exact .top (Nat.zero_le _)
  have hprinted : middle.output = other.output := by simpa using h.output
  exact ⟨0, {
    constants := fun entry constant hentry ↦ hconstants ▸ hentry
    globals := h.globals.trans (Machine.resize_of_size h.globalsSize).symm
    globalsSize := Machine.size_resize _ _
    serial := h.serial
    output := hprinted.trans String.append_empty.symm
    popped := by rintro _ ⟨⟩
    wholeSp := h.wholeSp
    pieceSp := rfl
    room := Nat.le_refl 0
    stack := ⟨h.stack.size, Array.size_replicate, fun _ ↦ (absurd · (Nat.not_lt_zero _))⟩
    frames := hframes }⟩

/-- The first piece comes to its end if nothing in it returns, and the whole is behind it then. -/
theorem Sound.halts_first {moved : List Instruction} {last : Machine} {count : Nat}
    (h : session.Sound) (hcode : Stmt.assembleAll program.statements .discard 0
      (Builder.resume session.scopes session.constants).draft = .ok first draft)
    (hstays : ∀ instruction ∈ first, instruction.opcode.stays)
    (hconstants : Extends draft.constants later.constants)
    (hhalts : (session.start (first ++ moved) later).Halts count (.ok () last)) :
    ∃ depth other middle, session.Completes program first draft other ∧ Excerpt.Ended other ∧
      Excerpt.Alike ⟨[], first, moved, depth, ""⟩ 0 0 middle other ∧
      ∃ steps more, (session.start (first ++ moved) later).Reaches steps middle ∧
        middle.Halts more (.ok () last) := by
  obtain ⟨hafter, hsound, hlongest, _⟩ := h.start hcode
  obtain ⟨depth, hnone, hexcerpt⟩ := Stmt.sound_excerpt hcode [] moved "" fun hfits ↦ by
    simpa using hfits
  obtain ⟨steps, other, hother, hend⟩ := (alike_start hconstants).halts hexcerpt hsound
    hafter.draft.constants hlongest hhalts
  rcases hend with ⟨_, instruction, hmem, hleads, htarget⟩ |
    ⟨hended, sp, middle, hreaches, halike, more, hmore⟩
  · have honward := Instruction.leadsOn_of_stays (hexcerpt.fits _ hmem) (hstays _ hmem) htarget
    rw [hleads] at honward
    cases honward
  · obtain ⟨_, _, hlevel⟩ := halike.behind hended
    obtain rfl : sp = 0 := Nat.eq_zero_of_le_zero (hnone ▸ hlevel)
    exact ⟨depth, other, middle, ⟨hcode, steps, hother⟩, hended, halike, steps, more, hreaches,
      hmore⟩

/-- The last piece ends as the whole does. -/
theorem Sound.halts_last {before : List Instruction} {printed : String} {last : Machine}
    {count : Nat} (h : session.Sound) (hcode : Stmt.assembleAll program.statements .discard 0
      (Builder.resume session.scopes session.constants).draft = .ok code draft)
    (hfits : ∀ instruction ∈ code, (instruction.shift (size before)).Fits)
    (halike : ∀ depth, Excerpt.Alike ⟨before, code, [], depth, printed⟩ 0 0 middle
      (session.start code draft))
    (hhalts : middle.Halts count (.ok () last)) :
    ∃ depth level sp other, session.Completes program code draft other ∧
      Excerpt.Alike ⟨before, code, [], depth, printed⟩ level sp last other := by
  obtain ⟨hafter, hsound, hlongest, _⟩ := h.start hcode
  obtain ⟨depth, _, hexcerpt⟩ := Stmt.sound_excerpt hcode before [] printed fun _ ↦ hfits
  obtain ⟨steps, other, level, sp, hother, hlast⟩ := (halike depth).halts_last rfl hexcerpt hsound
    hafter.draft.constants hlongest hhalts
  exact ⟨depth, level, sp, other, ⟨hcode, steps, hother⟩, hlast⟩

/-! ### Two pieces -/

/-- The statements do not return, and leave the names of the provided functions alone. -/
theorem spares_of_outside {stmts : List Stmt} (hret : ∀ value, .ret value ∉ Stmt.outsideAll stmts)
    (hbind : ∀ name value, .bind name value ∈ Stmt.outsideAll stmts →
      ∀ builtin : Builtin, builtin.name ≠ name) :
    ∀ stmt ∈ Stmt.outsideAll stmts, stmt.Spares (Builtin.all.map Builtin.name) True := by
  intro stmt hmem
  cases stmt with
  | bind name value =>
    intro hname
    obtain ⟨builtin, _, hsame⟩ := List.mem_map.mp hname
    exact hbind name value hmem builtin hsame
  | ret value => exact (hret value hmem).elim
  | eval => trivial

/-- Spec §5 and §E10, globals go from one input to the next. Assumes: the session is reachable; the
first piece has no `return` outside of functions (`hret`) and binds no name of a provided function
there (`hbind`); and the two pieces, entered as one program, come to their end (`henter`). Entered
one after the other, both come to their end too. They leave the same globals and print the same text
in all, and a value that the second answers is the one that the whole program answers. -/
theorem Reachable.enter_append (h : session.Reachable) {first second : List Stmt}
    (hret : ∀ value, .ret value ∉ Stmt.outsideAll first)
    (hbind : ∀ name value, .bind name value ∈ Stmt.outsideAll first →
      ∀ builtin : Builtin, builtin.name ≠ name)
    {popped : Option Value} {output : String}
    (henter : session.enter ⟨first ++ second⟩ = (⟨.ok popped, output⟩, after)) :
    ∃ poppedFirst printedFirst middle poppedSecond printedSecond final,
      session.enter ⟨first⟩ = (⟨.ok poppedFirst, printedFirst⟩, middle) ∧
      middle.enter ⟨second⟩ = (⟨.ok poppedSecond, printedSecond⟩, final) ∧
      final.globals = after.globals ∧ printedFirst ++ printedSecond = output ∧
      ∀ value, poppedSecond = some value → popped = some value := by
  have hsound := h.sound
  obtain ⟨code, later, final, ⟨hassembled, count, hhalts⟩, rfl, rfl, rfl⟩ :=
    hsound.enter_eq_ok_iff.mp henter
  obtain ⟨_, houter, _⟩ := Scopes.bindBuiltins_bounded hsound.draft.scopes hsound.outer
  obtain ⟨done, draft, rest, other, hdone, hmoved, hrest, rfl, hconstants, hstays⟩ :=
    Stmt.assembleAll_parts hassembled houter (Scopes.provides_bindBuiltins _)
      (spares_of_outside hret hbind)
  obtain ⟨hmiddle, _⟩ := hsound.start hdone
  obtain ⟨hlater, hwhole, hlongest, _⟩ := hsound.start hassembled
  have hfits : ∀ instruction ∈ rest, (instruction.shift (size done)).Fits := by
    have hlevels := ((Stmt.assembleAll_levels second (fun h : False ↦ h.elim) .discard (size done) 0
      draft).of_ok hmoved).2
    exact fun instruction hmem ↦ hlevels.fits _ (List.mem_map_of_mem hmem)
  have hextends : Extends draft.constants later.constants := by
    have hkeeps := Stmt.assembleAll_keeps second .discard (size done) draft hmiddle.draft
    rw [hmoved] at hkeeps
    exact hkeeps.2.1.constants
  obtain ⟨depth, begun, middle, hbegun, hended, halike, steps, more, hreaches, hmore⟩ :=
    hsound.halts_first hdone hstays hextends hhalts
  have hfirst := hsound.enter_eq_ok_iff.mpr ⟨done, draft, begun, hbegun, rfl, rfl, rfl⟩
  have hbetween : (session.settled draft begun).Sound := by
    have henter := hsound.enter ⟨first⟩
    rw [hfirst] at henter
    exact henter
  have hsame : middle.constants = other.constants :=
    (hwhole.reaches hlater.draft.constants hlongest hreaches).holds.pool.trans hconstants.symm
  obtain ⟨_, _, _, ended, hcompletes, hlast⟩ := hbetween.halts_last hrest hfits
    (fun _ ↦ alike_settled halike hended rfl hsame) hmore
  obtain ⟨mark, hlast⟩ := hlast
  refine ⟨_, _, _, _, _, _, hfirst,
    hbetween.enter_eq_ok_iff.mpr ⟨rest, other, ended, hcompletes, rfl, rfl, rfl⟩, ?_, ?_, ?_⟩
  · exact hlast.globals.symm
  · exact hlast.output.symm
  · exact hlast.popped

/-- A program that compiles completes in a new session if evaluation comes to its end. -/
theorem completes_of_evaluate {world : World} (hbranched : Stmt.branchedAll program.statements)
    (hcompiles : (Builder.new.add program).1 = none) (hevaluate : program.evaluate = .ok () world) :
    ∃ code draft last, Completes {} program code draft last ∧
      world.Matches draft.constants last := by
  rcases hadd : Builder.new.add program with ⟨error?, builder⟩
  rw [hadd] at hcompiles
  obtain rfl : error? = none := hcompiles
  obtain ⟨code, draft, hcode, hbytes⟩ := Program.assembled_of_add hadd
  have hconstants : builder.constants = draft.constants := congrArg Bytecode.constants hbytes
  obtain ⟨count, result, hhalts, hagrees⟩ := Program.halts_agrees hbranched hadd
  rw [hevaluate] at hagrees
  cases hagrees with
  | @ended last _ hmatches =>
    rw [hbytes] at hhalts
    rw [hconstants] at hmatches
    exact ⟨code, draft, last, ⟨hcode, count, hhalts⟩, hmatches⟩

/-- A program succeeds in a new session if it compiles and evaluation comes to its end. -/
theorem enter_eq_ok_of_evaluate {world : World} (hbranched : Stmt.branchedAll program.statements)
    (hcompiles : (Builder.new.add program).1 = none) (hevaluate : program.evaluate = .ok () world) :
    ∃ popped after, Session.enter {} program = (⟨.ok popped, world.output⟩, after) := by
  obtain ⟨code, draft, last, hcompletes, hmatches⟩ :=
    completes_of_evaluate hbranched hcompiles hevaluate
  exact ⟨_, _, sound_new.enter_eq_ok_iff.mpr ⟨code, draft, last, hcompletes, rfl, hmatches.output,
    rfl⟩⟩

/-- A function that was bound in an earlier piece, with a result under the name of a provided one.
-/
def earlier : List Stmt := [
  .bind "double" (.function ["x"]
    [.eval (.branch (.binary "<" (.int 1) (.ident "x"))
      [.eval (.binary "+" (.ident "x") (.ident "x"))] none)] (some "double")),
  .eval (.call (.ident "puts") [.str "ready"])]

def afterwards : List Stmt := [
  .bind "len" (.call (.ident "double") [.int 21]),
  .eval (.ident "len")]

theorem enter_append_doubled : (∀ value, .ret value ∉ Stmt.outsideAll earlier) ∧
    (∀ name value, .bind name value ∈ Stmt.outsideAll earlier →
      ∀ builtin : Builtin, builtin.name ≠ name) ∧
    ∃ popped whole, Session.enter {} ⟨earlier ++ afterwards⟩ = (⟨.ok popped, "ready\n"⟩, whole) ∧
      ∃ poppedFirst printedFirst middle poppedSecond printedSecond final,
        Session.enter {} ⟨earlier⟩ = (⟨.ok poppedFirst, printedFirst⟩, middle) ∧
        middle.enter ⟨afterwards⟩ = (⟨.ok poppedSecond, printedSecond⟩, final) ∧
        final.globals = whole.globals ∧ printedFirst ++ printedSecond = "ready\n" ∧
        ∀ value, poppedSecond = some value → popped = some value := by
  have hret : ∀ value, .ret value ∉ Stmt.outsideAll earlier := by
    simp [earlier, Stmt.outsideAll, Stmt.outside, Expr.outside, Expr.outsideAll]
  have hbind : ∀ name value, .bind name value ∈ Stmt.outsideAll earlier →
      ∀ builtin : Builtin, builtin.name ≠ name := by
    intro name value hmem builtin
    obtain ⟨rfl, _⟩ : name = "double" ∧ _ := by
      simpa [earlier, Stmt.outsideAll, Stmt.outside, Expr.outside, Expr.outsideAll] using hmem
    cases builtin <;> decide
  have hevaluate : passes (fun _ world ↦ world.output = "ready\n")
      (Program.evaluate ⟨earlier ++ afterwards⟩) := by decide +kernel
  obtain ⟨_, world, hworld, houtput⟩ := exists_of_passes hevaluate
  have houtput := of_decide_eq_true houtput
  obtain ⟨popped, whole, henter⟩ := enter_eq_ok_of_evaluate (by decide) (by decide +kernel) hworld
  rw [houtput] at henter
  exact ⟨hret, hbind, popped, whole, henter, Reachable.enter_append .new hret hbind henter⟩

end Session

end StackScript
