import Mathlib
import StackScript.Proofs.Program.Renumbering
import StackScript.Proofs.Session.Identity

/-!
What a piece that does not compile leaves to later pieces. Its constants stay in the pool, and the
names of its `let`s outside of functions have been given slots that nothing sets. All else is as it
was. So the session after it and the session before it hold the same but for numbers that were used
up (`Session.Reachable.renumbered_of_error`), and this is kept by every further piece, whether it is
run or refused, as long as it uses none of the names that the failed piece hides
(`Session.Renumbered.enter`). All later pieces come to the same
(`Session.Reachable.answers_of_error`).
-/

set_option autoImplicit false
set_option relaxedAutoImplicit false

namespace StackScript

open Instruction (encodeAll)

variable {gaps : Gaps}

/-! ### Names -/

/-- The name that a statement binds. -/
def Stmt.bound? : Stmt → Option String
  | .bind name _ => some name
  | .ret _ | .eval _ => none

/-- The names that a program binds outside of functions, but for those of provided functions, which
are bound anew before each program. -/
def Program.hides (program : Program) : List String :=
  ((Stmt.outsideAll program.statements).filterMap Stmt.bound?).filter fun name ↦
    name ∉ Builtin.all.map Builtin.name

theorem Program.not_bound_of_not_hides {program : Program} {name : String}
    (h : name ∉ program.hides) (hname : name ∉ Builtin.all.map Builtin.name) (value : Expr) :
    .bind name value ∉ Stmt.outsideAll program.statements := by
  intro hmem
  refine h (List.mem_filter.mpr ⟨List.mem_filterMap.mpr ⟨_, hmem, rfl⟩, ?_⟩)
  simpa using hname

/-- The provided functions are bound anew in both. -/
theorem Scopes.Renumbered.bindBuiltins {agreed : String → Prop} {more : List (String → Prop)}
    {scopes other : Scopes} (h : scopes.Renumbered gaps (agreed :: more) other) :
    (Builder.bindBuiltins scopes).Renumbered gaps (agreed :: more)
      (Builder.bindBuiltins other) := by
  unfold Builder.bindBuiltins
  induction Builtin.all generalizing scopes other with
  | nil => exact h
  | cons builtin rest ih => exact ih ((h.bind builtin.symbol).mono fun _ ↦ .inr)

theorem Draft.Renumbered.resume {agreed : String → Prop} {more : List (String → Prop)}
    {draft other : Draft} (h : draft.Renumbered gaps (agreed :: more) other) :
    (Builder.resume draft.scopes draft.constants).draft.Renumbered gaps (agreed :: more)
      (Builder.resume other.scopes other.constants).draft :=
  { h with scopes := h.scopes.bindBuiltins }

theorem Extends.size_le_size {constants more : Array Value} (h : Extends constants more) :
    constants.size ≤ more.size := by
  by_contra hless
  have hentry : more.size < constants.size := Nat.lt_of_not_le hless
  have hfound := h more.size _ (Array.getElem?_eq_getElem hentry)
  rw [Array.getElem?_eq_none (Nat.le_refl _)] at hfound
  cases hfound

/-! ### Values before the gaps -/

section Before

variable {constants : Array Value} {globals serial : Nat} {labelling : Labelling}
  (hrecords : labelling.Records constants serial)
  (hentries : constants.size ≤ gaps.entries.first)

include hrecords hentries

/-- The labels of values that there are are kept. -/
theorem Gaps.label_of_own {value : Value} {label : Label} (h : value.Labelled labelling)
    (hlabel : value.label? = some label) : gaps.label label = label := by
  cases label with
  | literal entry =>
    have hfound := h.own hlabel
    rw [hrecords.literals] at hfound
    have hentry := (Array.getElem?_eq_some_iff.mp hfound).1
    exact congrArg Label.literal (Gap.skip_of_lt (Nat.lt_of_lt_of_le hentry hentries))
  | program => rfl
  | heap serial => rfl

/-- Values that there are are the same under other numbers. -/
theorem Value.Sound.renumbered (hslots : globals ≤ gaps.slots.first) {value : Value}
    (h : value.Sound constants globals) (hlabelled : value.Labelled labelling) :
    value.Renumbered gaps value := by
  have hall : ∀ {values : List Value}, (∀ value ∈ values, value.Renumbered gaps value) →
      AllRenumbered gaps values values := fun hvalues ↦ List.forall₂_same.mpr hvalues
  have hlabel : ∀ {value : Value} {label : Label}, value.Labelled labelling →
      value.label? = some label → gaps.label label = label :=
    fun h ↦ Gaps.label_of_own hrecords hentries h
  induction h with
  | integer value => exact .integer value
  | boolean value => exact .boolean value
  | null => exact .null
  | builtin builtin => exact Related.builtin builtin
  | error message => exact Related.error message
  | string label content =>
    have hsame : Renumbered gaps _ _ := .string label content
    rwa [hlabel hlabelled rfl] at hsame
  | @array label elements _ ih =>
    have hsame := Renumbered.array label (hall fun element hmem ↦ ih element hmem
      (hlabelled.part hmem))
    rwa [hlabel hlabelled rfl] at hsame
  | @hash label entries _ ih =>
    have hvalues : ∀ value ∈ entries.map Prod.snd, value.Renumbered gaps value := by
      intro value hmem
      obtain ⟨⟨key, _⟩, hentry, rfl⟩ := List.mem_map.mp hmem
      exact ih key _ hentry (hlabelled.part hmem)
    have hsame := Renumbered.hash label rfl (hall hvalues)
    rwa [hlabel hlabelled rfl] at hsame
  | @closure label routine free hroutine _ ih =>
    have hbody := hroutine.wellFormed.renumbered hentries hslots
    have hsame := Renumbered.closure label hbody (hall fun value hmem ↦ ih value hmem
      (hlabelled.part hmem))
    rwa [hlabel hlabelled rfl] at hsame

/-- Constants that there are are the same under other numbers. -/
theorem ValidPool.renumbered (hslots : globals ≤ gaps.slots.first)
    (h : ValidPool constants globals) {more : Array Value} (hmore : Extends constants more) :
    PoolRenumbered gaps constants more := by
  intro entry constant hentry
  have hbefore : entry < gaps.entries.first :=
    Nat.lt_of_lt_of_le (Array.getElem?_eq_some_iff.mp hentry).1 hentries
  have hlabel : ∀ label, constant.label? = some label → gaps.label label = label := by
    intro label hlabel
    rw [hrecords.stamped entry constant label hentry hlabel]
    exact congrArg Label.literal (Gap.skip_of_lt hbefore)
  refine ⟨constant, (Gap.skip_of_lt hbefore).symm ▸ hmore entry constant hentry, ?_⟩
  have hvalid := h entry constant hentry
  cases constant with
  | integer value => exact .literal (.integer value)
  | string label content =>
    have hsame : Value.Renumbered gaps _ _ := .string label content
    rw [hlabel label rfl] at hsame
    exact .literal hsame
  | routine label routine =>
    obtain ⟨free, hwell⟩ := hvalid
    have hsame := Value.RenumberedConstant.routine label (hwell.renumbered hentries hslots)
    rwa [hlabel label rfl] at hsame
  | _ => exact hvalid.elim

end Before

/-- An error in a run may name a global by its slot. -/
def EvalError.renumber (gaps : Gaps) : EvalError → EvalError
  | runtime error => runtime (error.renumber gaps)
  | other => other

/-- The error without the slot of a global. -/
def EvalError.unnumbered : EvalError → EvalError
  | runtime (.uninitializedGlobal _) => runtime (.uninitializedGlobal 0)
  | other => other

theorem EvalError.unnumbered_renumber (error : EvalError) (gaps : Gaps) :
    (error.renumber gaps).unnumbered = error.unnumbered := by
  cases error with
  | runtime error => cases error <;> rfl
  | syntactic | compilation => rfl

namespace Session

/-! ### Sessions under other numbers -/

/-- The sessions hold the same but for numbers that were used up, and agree on all names that are
not hidden once the provided functions are bound. -/
structure Renumbered (gaps : Gaps) (hidden : List String) (session other : Session) : Prop where
  sound : session.Sound
  otherSound : other.Sound
  draft : (Builder.resume session.scopes session.constants).draft.Renumbered gaps [(· ∉ hidden)]
    (Builder.resume other.scopes other.constants).draft
  globals : GlobalsRenumbered gaps session.globals other.globals
  serial : other.serial = session.serial

theorem definitions_bindBuiltins (scopes : Scopes) :
    (Builder.bindBuiltins scopes).current.definitions = scopes.current.definitions := by
  unfold Builder.bindBuiltins
  induction Builtin.all generalizing scopes with
  | nil => rfl
  | cons builtin rest ih => exact ih _

variable {session other after : Session} {program : Program} {error : CompileError}
  {output : String} {hidden known later : List String}

/-- A name that no statement outside of functions binds stands for the same after a piece that does
not compile. -/
theorem Sound.find?_withDraft (h : session.Sound) {draft : Draft}
    (hcode : Stmt.assembleAll program.statements .discard 0
      (Builder.resume session.scopes session.constants).draft = .error error draft) {name : String}
    (hname : name ∉ program.hides) :
    (Builder.bindBuiltins draft.scopes).current.find? name =
      (Builder.bindBuiltins session.scopes).current.find? name := by
  by_cases hprovided : name ∈ Builtin.all.map Builtin.name
  · obtain ⟨builtin, _, rfl⟩ := List.mem_map.mp hprovided
    rw [Scopes.provides_bindBuiltins, Scopes.provides_bindBuiltins]
  · exact (h.find?_assembled (Program.not_bound_of_not_hides hname hprovided)).at_error hcode

/-- A name comes to the same after a piece that does not compile, unless a `let` of that piece hides
it. -/
theorem Sound.read_withDraft (h : session.Sound) {draft : Draft}
    (hcode : Stmt.assembleAll program.statements .discard 0
      (Builder.resume session.scopes session.constants).draft = .error error draft) {name : String}
    (hname : name ∉ program.hides) : (session.withDraft draft).read name = session.read name := by
  simp only [read, withDraft, h.find?_withDraft hcode hname]

/-- Names of a session whose slots are before the gaps. -/
theorem Sound.renumber_of_find? (h : session.Sound)
    (hfirst : session.scopes.current.definitions ≤ gaps.slots.first) {name : String} :
    ((Builder.bindBuiltins session.scopes).current.find? name).map (.renumber gaps) =
      (Builder.bindBuiltins session.scopes).current.find? name := by
  cases hfind : (Builder.bindBuiltins session.scopes).current.find? name with
  | none => rfl
  | some symbol =>
    obtain ⟨hbounded, houter, _⟩ := Scopes.bindBuiltins_bounded h.draft.scopes h.outer
    have hwithin := Scope.Bounded.within hbounded symbol (Scope.mem_of_find? hfind)
    rw [houter] at hwithin
    obtain ⟨title, place, index⟩ := symbol
    refine congrArg some ?_
    unfold Symbol.renumber
    split
    · next hglobal =>
      obtain rfl : place = .global := hglobal
      have hindex : index < _ := hwithin
      simp only [Scope.limits, definitions_bindBuiltins] at hindex
      rw [Gap.skip_of_lt (Nat.lt_of_lt_of_le hindex hfirst)]
    · rfl

/-- The globals of a session, as far as they are set, are before the gaps. -/
theorem Reachable.globalsRenumbered (h : session.Reachable)
    (hentries : session.constants.size ≤ gaps.entries.first)
    (hslots : gaps.slots.first = session.scopes.limits.globals) :
    GlobalsRenumbered gaps session.globals session.globals := by
  obtain ⟨labelling, hlabelled⟩ := h.moment.labelled
  have hlabelled : session.Labelled labelling := hlabelled
  have hnumbered : session.Numbered := h.moment.numbered
  intro slot _
  rcases Nat.lt_or_ge slot gaps.slots.first with hbefore | hbeyond
  · rw [Gap.skip_of_lt hbefore]
    cases hcontent : session.globals[slot]?.join with
    | none => exact .none
    | some value =>
      have hslot : session.globals[slot]? = some (some value) := Option.join_eq_some_iff.mp hcontent
      exact .some ((h.sound.globals slot value hslot).renumbered hlabelled.records hentries
        hslots.ge (hlabelled.inGlobal slot value hslot))
  · rw [hslots] at hbeyond
    rw [hnumbered.unset slot hbeyond, hnumbered.unset _ (hbeyond.trans (gaps.slots.le_skip slot))]
    exact .none

/-- The session after a piece that does not compile holds what the session before it does. -/
theorem Reachable.renumbered_of_error (h : session.Reachable)
    (hfails : session.enter program = (⟨.error (.compilation error), output⟩, after)) :
    ∃ gaps, session.Renumbered gaps program.hides after := by
  have hafter := h.sound.enter program
  rw [hfails] at hafter
  obtain ⟨draft, hcode, rfl, rfl⟩ := h.sound.enter_eq_compilation_iff.mp hfails
  let resumed := (Builder.resume session.scopes session.constants).draft
  obtain ⟨hbounded, houter, hbound⟩ :=
    Scopes.bindBuiltins_bounded h.sound.draft.scopes h.sound.outer
  have hresumed : resumed.Sound := ⟨hbounded, h.sound.draft.constants.mono hbound.limits.globals⟩
  have hgrown : resumed.Grown draft := by
    have hkeeps := Stmt.assembleAll_keeps program.statements .discard 0 resumed hresumed
    rw [hcode] at hkeeps
    exact hkeeps.2
  have hslots : session.scopes.current.definitions ≤ draft.scopes.current.definitions := by
    have hle := hgrown.scopes.current.definitions
    rwa [← definitions_bindBuiltins session.scopes]
  have hlimits : session.scopes.current.definitions = session.scopes.limits.globals := by
    simp only [Scopes.limits, Scope.limits, h.sound.outer]
  let gaps : Gaps :=
    ⟨⟨session.constants.size, draft.constants.size - session.constants.size⟩,
      ⟨session.scopes.current.definitions,
        draft.scopes.current.definitions - session.scopes.current.definitions⟩⟩
  have hglobals : GlobalsRenumbered gaps session.globals session.globals :=
    h.globalsRenumbered (Nat.le_refl _) hlimits
  obtain ⟨labelling, hlabelled⟩ := h.moment.labelled
  have hlabelled : session.Labelled labelling := hlabelled
  refine ⟨gaps, h.sound, hafter, ⟨.of_current ⟨fun name hname ↦ ?_, ?_, ?_⟩ houter ?_, ?_, ?_, ?_⟩,
    hglobals, rfl⟩
  · have hkept := h.sound.find?_withDraft hcode hname
    exact hkept.trans (h.sound.renumber_of_find? (Nat.le_refl _)).symm
  · exact Nat.le_of_eq (definitions_bindBuiltins session.scopes).symm
  · change (Builder.bindBuiltins draft.scopes).current.definitions =
      (Builder.bindBuiltins session.scopes).current.definitions + _
    rw [definitions_bindBuiltins, definitions_bindBuiltins]
    exact (Nat.add_sub_of_le hslots).symm
  · exact (Scopes.bindBuiltins_bounded hafter.draft.scopes hafter.outer).2.1
  · exact ValidPool.renumbered hlabelled.records (Nat.le_refl _) hlimits.ge h.sound.draft.constants
      hgrown.constants
  · exact Nat.le_refl _
  · exact (Nat.add_sub_of_le hgrown.constants.size_le_size).symm

/-! ### Answers -/

/-- The same answer under other numbers: values that differ in these alone, or the same error, and
the same printed text. -/
structure Answer.Renumbered (gaps : Gaps) (answer other : Answer) : Prop where
  values (popped : Option Value) : answer.result = .ok popped →
    ∃ same, other.result = .ok same ∧ Option.Rel (Value.Renumbered gaps) popped same
  errors (error : EvalError) : answer.result = .error error →
    other.result = .error (error.renumber gaps)
  output : other.output = answer.output

/-- Programs are refused alike, unless for an operand that is too large. -/
def Answer.IsTooLarge (answer : Answer) : Prop :=
  ∃ error : CompileError, error.IsTooLarge ∧ answer.result = .error (.compilation error)

/-- A program that was assembled is not refused, and the session keeps its names and constants,
whatever its run comes to. -/
theorem enter_of_assembled {code : List Instruction} {draft : Draft}
    (hcode : Stmt.assembleAll program.statements .discard 0
      (Builder.resume session.scopes session.constants).draft = .ok code draft) :
    ¬(session.enter program).1.IsTooLarge ∧
      (session.enter program).2.scopes = draft.scopes ∧
      (session.enter program).2.constants = draft.constants := by
  unfold Session.enter
  rw [compile_eq, hcode]
  dsimp only
  rw [run_eq_of_run rfl]
  generalize Run.run (session.start code draft) = result
  cases result <;> exact ⟨by rintro ⟨_, _, ⟨⟩⟩, rfl, rfl⟩

/-- The names that are hidden still: a program that is not refused binds its names anew. -/
def Answer.leaves (answer : Answer) (hidden known : List String) : List String :=
  match answer.result with
  | .error (.compilation _) => hidden
  | _ => hidden.filter fun name ↦ name ∉ known

theorem Answer.mem_of_mem_leaves {answer : Answer} {name : String}
    (h : name ∈ answer.leaves hidden known) : name ∈ hidden := by
  unfold leaves at h
  split at h
  · exact h
  · exact List.mem_of_mem_filter h

/-- The machines for a program that was assembled in both sessions. -/
theorem Renumbered.start (h : session.Renumbered gaps hidden other)
    {code counterpart : List Instruction} {draft same : Draft} {agreed : List (String → Prop)}
    (hcode : CodeRenumbered gaps code counterpart)
    (hdraft : draft.Renumbered gaps agreed same) :
    (session.start code draft).Renumbered gaps (other.start counterpart same) := by
  have hnone : ∀ slot : Nat, Option.Rel (Value.Renumbered gaps)
      (Array.replicate stackSize (none : Option Value))[slot]?.join
      (Array.replicate stackSize none)[slot]?.join := by
    intro slot
    rw [Array.getElem?_replicate]
    split <;> exact .none
  refine {
    constants := hdraft.constants
    stackSize := rfl
    stack := hnone
    sp := rfl
    globals := fun slot hslot ↦ ?_
    sizes := ⟨Machine.size_resize _ _, Machine.size_resize _ _⟩
    frame := ⟨rfl, hcode.routine 0 0, .nil, rfl, rfl⟩
    callers := .nil
    lastPopped := .none
    serial := h.serial
    output := rfl }
  have hbefore := Nat.lt_of_le_of_lt (gaps.slots.le_skip slot) hslot
  change Option.Rel _ (Machine.resize globalsSize session.globals)[slot]?.join
    (Machine.resize globalsSize other.globals)[gaps.slots.skip slot]?.join
  rw [Machine.join_getElem?_resize hbefore, Machine.join_getElem?_resize hslot]
  exact h.globals slot hslot

/-- A program comes to the same in both sessions, if it uses no name that is hidden, and the
sessions hold the same after it. -/
theorem Renumbered.enter (h : session.Renumbered gaps hidden other)
    (hnames : Stmt.namesAll? program.statements known = some later)
    (hknown : ∀ name ∈ known, name ∉ hidden) (hlimits : ¬(other.enter program).1.IsTooLarge) :
    (session.enter program).1.Renumbered gaps (other.enter program).1 ∧
      (session.enter program).2.Renumbered gaps ((other.enter program).1.leaves hidden later)
        (other.enter program).2 := by
  have hsound := h.sound.enter program
  have hotherSound := h.otherSound.enter program
  obtain ⟨hfollows, hfails⟩ : Assembly.Matches _ gaps [] _ _ _ _ _ _ :=
    (Part.stmts program.statements .discard).renumbered hnames hknown h.draft 0
  cases hother : Stmt.assembleAll program.statements .discard 0
      (Builder.resume other.scopes other.constants).draft with
  | error error same =>
    have hanswer := enter_of_error hother
    rw [hanswer] at hlimits hotherSound ⊢
    obtain ⟨_, draft, hcode, rfl, hdraft⟩ := (hfails error same hother).resolve_left
      fun hlarge ↦ hlimits ⟨error, hlarge, rfl⟩
    have hfirst : session.enter program = _ := enter_of_error hcode
    rw [hfirst] at hsound ⊢
    exact ⟨⟨by rintro _ ⟨⟩, by rintro _ ⟨⟩; rfl, rfl⟩, hsound, hotherSound, hdraft.resume,
      h.globals, h.serial⟩
  | ok counterpart same =>
    obtain ⟨code, draft, hfirst, hcode, hdraft⟩ := hfollows counterpart same hother
    have hmachines := h.start hcode hdraft
    obtain ⟨hafter, hmachine, hlongest, count, result, hhalts, _⟩ := h.sound.start hfirst
    obtain ⟨ended, hotherHalts, hends⟩ :=
      hmachines.halts hafter.draft.constants hlongest hmachine hhalts
    rw [h.sound.enter_of_halts hfirst hhalts] at hsound ⊢
    rw [h.otherSound.enter_of_halts hother hotherHalts] at hotherSound ⊢
    have hbound : ∀ name, name ∉ hidden.filter (fun name ↦ name ∉ later) →
        Part.also (· ∉ hidden) later name := by
      intro name hname
      by_contra hnot
      obtain ⟨hhidden, hlater⟩ := not_or.mp hnot
      exact hname (List.mem_filter.mpr ⟨not_not.mp hhidden, decide_eq_true hlater⟩)
    have hnext := (hdraft.mono hbound).resume
    cases hends with
    | ok hlast =>
      exact ⟨⟨by rintro _ ⟨⟩; exact ⟨_, rfl, hlast.lastPopped⟩, by rintro _ ⟨⟩, hlast.output⟩,
        hsound, hotherSound, hnext, hlast.globals, hlast.serial⟩
    | error error hlast =>
      exact ⟨⟨by rintro _ ⟨⟩, by rintro _ ⟨⟩; rfl, hlast.output⟩, hsound, hotherSound, hnext,
        hlast.globals, hlast.serial⟩

/-! ### All later pieces -/

/-- The answers to sources, one after the other. -/
def answers : Session → List String → List Answer
  | _, [] => []
  | session, source :: rest =>
    (session.eval source).1 :: (session.eval source).2.answers rest

/-- No source uses a name that is hidden, unless a program that was run has bound it anew. The names
that a program uses are among those known before it. -/
def Avoids : List String → Session → List String → Prop
  | _, _, [] => True
  | hidden, session, source :: rest =>
    match Program.ofSource source with
    | .error _ => Avoids hidden session rest
    | .ok program => ∃ known later, (∀ name ∈ known, name ∉ hidden) ∧
      Stmt.namesAll? program.statements known = some later ∧
      Avoids ((session.enter program).1.leaves hidden later) (session.enter program).2 rest

theorem eval_of_ofSource {source : String} (h : Program.ofSource source = .ok program) :
    session.eval source = session.enter program := by
  unfold Session.eval
  rw [h]
  rfl

/-- All further pieces come to the same, and it stays so from piece to piece. -/
theorem Renumbered.answers (h : session.Renumbered gaps hidden other) {sources : List String}
    (havoids : other.Avoids hidden sources)
    (hlimits : ∀ answer ∈ other.answers sources, ¬answer.IsTooLarge) :
    List.Forall₂ (Answer.Renumbered gaps) (session.answers sources) (other.answers sources) := by
  induction sources generalizing hidden session other with
  | nil => exact .nil
  | cons source rest ih =>
    simp only [Session.answers, List.forall_mem_cons] at hlimits ⊢
    unfold Avoids at havoids
    unfold Session.eval at hlimits ⊢
    cases hparse : Program.ofSource source with
    | error error =>
      rw [hparse] at havoids hlimits
      exact .cons ⟨by rintro _ ⟨⟩, by rintro _ ⟨⟩; rfl, rfl⟩ (ih h havoids hlimits.2)
    | ok program =>
      rw [hparse] at havoids hlimits
      obtain ⟨known, later, hknown, hnames, hrest⟩ := havoids
      obtain ⟨hanswer, hnext⟩ := h.enter hnames hknown hlimits.1
      exact .cons hanswer (ih hnext hrest hlimits.2)

/-- Sources that use none of the hidden names avoid these, whatever becomes of each source. -/
theorem Avoids.of_disjoint {sources : List String}
    (h : ∀ source ∈ sources, ∀ program, Program.ofSource source = .ok program →
      ∃ known later, (∀ name ∈ known, name ∉ hidden) ∧
        Stmt.namesAll? program.statements known = some later) :
    session.Avoids hidden sources := by
  induction sources generalizing hidden session with
  | nil => exact trivial
  | cons source rest ih =>
    obtain ⟨hsource, hrest⟩ := List.forall_mem_cons.mp h
    unfold Avoids
    split
    · exact ih hrest
    · next program hparse =>
      obtain ⟨known, later, hknown, hnames⟩ := hsource program hparse
      refine ⟨known, later, hknown, hnames, ih fun source hmem program hparse ↦ ?_⟩
      obtain ⟨names, more, hdisjoint, hmore⟩ := hrest source hmem program hparse
      exact ⟨names, more,
        fun name hname hleft ↦ hdisjoint name hname (Answer.mem_of_mem_leaves hleft), hmore⟩

/-- What is seen of an answer: the kind of the value and its text, or the error; and what was
printed. -/
def Answer.seen (answer : Answer) : Except EvalError (Option (Value.Kind × String)) × String :=
  match answer.result with
  | .ok popped => (.ok (popped.map fun value ↦ (value.kind, value.inspect)), answer.output)
  | .error error => (.error error.unnumbered, answer.output)

theorem Answer.Renumbered.seen_eq {answer other : Answer} (h : answer.Renumbered gaps other) :
    other.seen = answer.seen := by
  unfold Answer.seen
  rw [h.output]
  cases hresult : answer.result with
  | error error =>
    rw [h.errors error hresult]
    exact congrArg (fun error ↦ (Except.error error, answer.output))
      (error.unnumbered_renumber gaps)
  | ok popped =>
    obtain ⟨same, hsame, hvalues⟩ := h.values popped hresult
    rw [hsame]
    cases hvalues with
    | none => rfl
    | some hvalue =>
      dsimp only [Option.map_some]
      rw [hvalue.kind_eq, hvalue.inspect_eq]

theorem Answer.map_seen_eq {answers others : List Answer}
    (h : List.Forall₂ (Answer.Renumbered gaps) answers others) :
    others.map Answer.seen = answers.map Answer.seen := by
  induction h with
  | nil => rfl
  | cons hanswer _ ih => exact congrArg₂ List.cons hanswer.seen_eq ih

/-- Spec §E5 and §E10, a compile error does not poison the session. Assumes: the session is
reachable; the source is a program and does not compile (`hsource`, `heval`); no later source uses a
name that the program hides (`havoids`); and none has an operand that is too large (`hlimits`). All
later sources come to the same as if the source had not been given, in values, errors and printed
text, and each other name answers as before. Only a name that the source binds by a `let` outside of
functions may be lost, until it is bound anew. A global that such a `let` was given a slot for is
never set, so errors of later sources may name globals by other numbers. -/
theorem Reachable.answers_of_error (h : session.Reachable) {source : String}
    (hsource : Program.ofSource source = .ok program)
    (heval : session.eval source = (⟨.error (.compilation error), output⟩, after))
    {sources : List String} (havoids : after.Avoids program.hides sources)
    (hlimits : ∀ answer ∈ after.answers sources, ¬answer.IsTooLarge) :
    output = "" ∧ after.globals = session.globals ∧ after.serial = session.serial ∧
      (∃ gaps, List.Forall₂ (Answer.Renumbered gaps) (session.answers sources)
        (after.answers sources)) ∧
      (after.answers sources).map Answer.seen = (session.answers sources).map Answer.seen ∧
      ∀ name ∉ program.hides,
        (after.enter (reading name)).1 = (session.enter (reading name)).1 := by
  have hfails : session.enter program = (⟨.error (.compilation error), output⟩, after) := by
    rwa [eval_of_ofSource hsource] at heval
  have hafter := h.sound.enter program
  rw [hfails] at hafter
  obtain ⟨gaps, hsame⟩ := h.renumbered_of_error hfails
  have hanswers := hsame.answers havoids hlimits
  obtain ⟨draft, hcode, rfl, rfl⟩ := h.sound.enter_eq_compilation_iff.mp hfails
  refine ⟨rfl, rfl, rfl, ⟨gaps, hanswers⟩, Answer.map_seen_eq hanswers, fun name hname ↦ ?_⟩
  rw [hafter.enter_reading, h.sound.enter_reading]
  have hread := h.sound.read_withDraft hcode hname
  exact congrArg (fun read ↦ (⟨read.map some, ""⟩ : Answer)) hread

theorem answers_of_error_let : ∃ middle after : Session, middle.Reachable ∧
    Program.ofSource "let b = missing;" = .ok (failing "b") ∧
    middle.eval "let b = missing;" =
      (⟨.error (.compilation (.undefinedVariable "missing")), ""⟩, after) ∧
    after.Avoids (failing "b").hides ["let c = a;", "c"] ∧
    (∀ answer ∈ after.answers ["let c = a;", "c"], ¬answer.IsTooLarge) ∧
    (after.answers ["let c = a;", "c"]).map Answer.seen =
      (middle.answers ["let c = a;", "c"]).map Answer.seen ∧
    (after.enter (reading "a")).1 = ⟨.ok (some (.integer 1)), ""⟩ := by
  obtain ⟨_, _, middle, _, hreachable, hread, hscopes, hconstants, _⟩ := enter_binding
  let draft : Draft :=
    ⟨#[.integer 1], ((Builder.bindBuiltins ((Builder.bindBuiltins {}).define "a").2).define "b").2⟩
  let after := middle.withDraft draft
  have hfailing : Program.ofSource "let b = missing;" = .ok (failing "b") := by cbv
  have hbinding : Program.ofSource "let c = a;" = .ok ⟨[.bind "c" (.ident "a")]⟩ := by cbv
  have hreading : Program.ofSource "c" = .ok (reading "c") := by cbv
  have heval : middle.eval "let b = missing;" =
      (⟨.error (.compilation (.undefinedVariable "missing")), ""⟩, after) := by
    refine (eval_of_ofSource hfailing).trans (enter_of_error ?_)
    simp only [draft, hscopes, hconstants]
    rfl
  have hunused : ∀ source ∈ ["let c = a;", "c"], ∀ program, Program.ofSource source = .ok program →
      ∃ known later, (∀ name ∈ known, name ∉ (failing "b").hides) ∧
        Stmt.namesAll? program.statements known = some later := by
    intro source hmem program hparse
    rcases List.mem_pair.mp hmem with rfl | rfl
    · obtain rfl := Except.ok.inj (hbinding.symm.trans hparse)
      exact ⟨["a"], _, by decide, rfl⟩
    · obtain rfl := Except.ok.inj (hreading.symm.trans hparse)
      exact ⟨["c"], _, by decide, rfl⟩
  have havoids : after.Avoids (failing "b").hides ["let c = a;", "c"] := .of_disjoint hunused
  have hlimits : ∀ answer ∈ after.answers ["let c = a;", "c"], ¬answer.IsTooLarge := by
    let bound : Draft := ⟨draft.constants, ((Builder.bindBuiltins draft.scopes).define "c").2⟩
    let last : Draft := ⟨draft.constants, Builder.bindBuiltins bound.scopes⟩
    have hbound : Stmt.assembleAll [.bind "c" (.ident "a")] .discard 0
        (Builder.resume draft.scopes draft.constants).draft =
          .ok [⟨.getGlobal, [0]⟩, ⟨.setGlobal, [2]⟩] bound := by cbv
    have hlast : Stmt.assembleAll (reading "c").statements .discard 0
        (Builder.resume bound.scopes bound.constants).draft =
          .ok [⟨.getGlobal, [2]⟩, ⟨.pop, []⟩] last := by cbv
    obtain ⟨hfirst, hlater, hmore⟩ :
        _ ∧ (after.enter ⟨[.bind "c" (.ident "a")]⟩).2.scopes = _ ∧ _ := enter_of_assembled hbound
    rw [← hlater, ← hmore] at hlast
    simp only [Session.answers, eval_of_ofSource hbinding, eval_of_ofSource hreading,
      List.forall_mem_cons]
    exact ⟨hfirst, (enter_of_assembled hlast).1, by rintro _ ⟨⟩⟩
  obtain ⟨_, _, _, _, hseen, hkept⟩ :=
    hreachable.answers_of_error hfailing heval havoids hlimits
  exact ⟨middle, after, hreachable, hfailing, heval, havoids, hlimits, hseen,
    (hkept "a" (by decide)).trans hread⟩

end Session

end StackScript
