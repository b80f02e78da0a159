import StackScript.Proofs.Bytecode.WellFormed

/-!
The globals that code sets. Each `let` outside of functions gets a global that no name had before,
so that the code of a program sets no global twice and none that was there before it; the code of
functions sets none at all. All this holds of what was assembled before an error as well
(`Part.numbers`).
-/

set_option autoImplicit false
set_option relaxedAutoImplicit false

namespace StackScript

open Instruction (size encodeAll)

namespace Instruction

def sets? (instruction : Instruction) : Option Nat :=
  match instruction.opcode, instruction.operands with
  | .setGlobal, [slot] => some slot
  | _, _ => none

/-- The globals that the instructions set, in their order. -/
def sets (code : List Instruction) : List Nat :=
  code.filterMap sets?

@[simp] theorem sets_nil : sets [] = [] := rfl

@[simp] theorem sets_append (first second : List Instruction) :
    sets (first ++ second) = sets first ++ sets second :=
  List.filterMap_append

@[simp] theorem sets_cons_of_none {instruction : Instruction} (h : instruction.sets? = none)
    (rest : List Instruction) : sets (instruction :: rest) = sets rest :=
  List.filterMap_cons_none h

theorem sets?_of_ne {instruction : Instruction} (h : instruction.opcode ≠ .setGlobal) :
    instruction.sets? = none := by
  unfold sets?
  split
  · next hopcode _ => exact absurd hopcode h
  · rfl

end Instruction

open Instruction (sets)

/-! ### Functions -/

/-- The code of a function that sets no global. -/
def Routine.Quiet (routine : Routine) : Prop :=
  ∃ code : List Instruction, routine.code.toList = encodeAll code ∧
    (∀ instruction ∈ code, instruction.Fits) ∧ sets code = []

def Value.Quiet : Value → Prop
  | routine _ body => body.Quiet
  | _ => True

def QuietPool (constants : Array Value) : Prop :=
  ∀ (entry : Nat) (constant : Value), constants[entry]? = some constant → constant.Quiet

theorem QuietPool.push {constants : Array Value} {constant : Value} (h : QuietPool constants)
    (hconstant : constant.Quiet) : QuietPool (constants.push constant) := by
  intro entry other hentry
  rw [Array.getElem?_push] at hentry
  split at hentry
  · cases hentry
    exact hconstant
  · exact h entry other hentry

/-! ### Drafts -/

namespace Draft

/-- Scopes only grow, and no function comes to set a global. -/
structure Kept (before after : Draft) : Prop where
  scopes : before.scopes.Grown after.scopes
  quiet : QuietPool before.constants → QuietPool after.constants

theorem Kept.refl (draft : Draft) : draft.Kept draft :=
  ⟨.refl _, id⟩

theorem Kept.trans {first second third : Draft} (h : first.Kept second)
    (hnext : second.Kept third) : first.Kept third :=
  ⟨h.scopes.trans hnext.scopes, hnext.quiet ∘ h.quiet⟩

/-- How many globals have been given out. -/
def globals (draft : Draft) : Nat :=
  draft.scopes.limits.globals

/-- The code sets only globals that were given out between the drafts, and none of them twice. -/
structure Numbers (before after : Draft) (code : List Instruction) : Prop extends
    Kept before after where
  fits : ∀ instruction ∈ code, instruction.Fits
  nodup : (sets code).Nodup
  fresh : ∀ slot ∈ sets code, before.globals ≤ slot ∧ slot < after.globals
  inside : before.scopes.outer ≠ [] → sets code = []

namespace Numbers

variable {before middle after : Draft} {first second : List Instruction} {instruction : Instruction}

theorem of_kept (h : before.Kept after) : before.Numbers after [] :=
  ⟨h, by simp, by simp, by simp, fun _ ↦ rfl⟩

theorem nil (draft : Draft) : draft.Numbers draft [] :=
  .of_kept (.refl draft)

theorem single (draft : Draft) (hfits : instruction.Fits) (hsets : instruction.sets? = none) :
    draft.Numbers draft [instruction] := by
  have hnone : sets [instruction] = [] := Instruction.sets_cons_of_none hsets []
  refine ⟨.refl draft, by simpa using hfits, ?_, ?_, fun _ ↦ hnone⟩ <;> simp [hnone]

theorem append (h : before.Numbers middle first) (hnext : middle.Numbers after second) :
    before.Numbers after (first ++ second) := by
  have hgrown := h.scopes.limits.globals
  have hmore := hnext.scopes.limits.globals
  refine ⟨h.toKept.trans hnext.toKept, List.forall_mem_append.mpr ⟨h.fits, hnext.fits⟩, ?_, ?_,
    fun houter ↦ ?_⟩
  · rw [Instruction.sets_append]
    refine List.nodup_append.mpr ⟨h.nodup, hnext.nodup, ?_⟩
    rintro slot hfirst _ hsecond rfl
    exact absurd (h.fresh slot hfirst).2 (Nat.not_lt_of_le (hnext.fresh slot hsecond).1)
  · intro slot hslot
    rw [Instruction.sets_append] at hslot
    rcases List.mem_append.mp hslot with hfirst | hsecond
    · exact ⟨(h.fresh slot hfirst).1, Nat.lt_of_lt_of_le (h.fresh slot hfirst).2 hmore⟩
    · exact ⟨Nat.le_trans hgrown (hnext.fresh slot hsecond).1, (hnext.fresh slot hsecond).2⟩
  · have hmiddle : middle.scopes.outer ≠ [] := mt h.scopes.outer_eq_nil.mp houter
    rw [Instruction.sets_append, h.inside houter, hnext.inside hmiddle, List.append_nil]

/-- An instruction that sets no global, at any place. -/
theorem insert (h : before.Numbers after (first ++ second)) (hfits : instruction.Fits)
    (hsets : instruction.sets? = none) : before.Numbers after (first ++ instruction :: second) := by
  have hsame : sets (first ++ instruction :: second) = sets (first ++ second) := by
    simp [Instruction.sets_cons_of_none hsets]
  have hboth := List.forall_mem_append.mp h.fits
  refine ⟨h.toKept, ?_, hsame ▸ h.nodup, hsame ▸ h.fresh, hsame ▸ h.inside⟩
  exact List.forall_mem_append.mpr ⟨hboth.1, List.forall_mem_cons.mpr ⟨hfits, hboth.2⟩⟩

/-- The value of a new global, and the instruction that sets it. -/
theorem bound (h : middle.Numbers after first) (hkept : before.Kept middle)
    (houter : before.scopes.outer = []) (hglobals : middle.globals = before.globals + 1)
    (hfits : Instruction.Fits ⟨.setGlobal, [before.globals]⟩) :
    before.Numbers after (first ++ [⟨.setGlobal, [before.globals]⟩]) := by
  have hsets : sets (first ++ [⟨.setGlobal, [before.globals]⟩]) = sets first ++ [before.globals] :=
    Instruction.sets_append first _
  have hgrown : middle.globals ≤ after.globals := h.scopes.limits.globals
  refine ⟨hkept.trans h.toKept, List.forall_mem_append.mpr ⟨h.fits, by simpa using hfits⟩, ?_, ?_,
    fun hinner ↦ absurd houter hinner⟩
  · rw [hsets]
    refine List.nodup_append.mpr ⟨h.nodup, by simp, ?_⟩
    intro slot hslot other hother hsame
    have hlower := (h.fresh slot hslot).1
    rw [hsame, List.mem_singleton.mp hother] at hlower
    omega
  · intro slot hslot
    rw [hsets] at hslot
    rcases List.mem_append.mp hslot with hfirst | hlast
    · have hfresh := h.fresh slot hfirst
      omega
    · rw [List.mem_singleton.mp hlast]
      omega

end Numbers

end Draft

/-! ### Assemblies -/

namespace Assembly

variable {α β : Type} {draft : Draft}

/-- The assembly keeps what `Draft.Kept` says, also if it fails, and what it yields satisfies the
property. -/
def Adds (assembly : Assembly α) (draft : Draft) (property : α → Draft → Prop) : Prop :=
  Ends assembly draft (fun yielded after ↦ draft.Kept after ∧ property yielded after)
    fun _ after ↦ draft.Kept after

variable {property : α → Draft → Prop} {further : β → Draft → Prop}

theorem Adds.bind {assembly : Assembly α} {next : α → Assembly β}
    (h : Adds assembly draft property)
    (hnext : ∀ yielded after, draft.Kept after → property yielded after →
      Adds (next yielded) after further) :
    Adds (assembly >>= next) draft further := by
  refine Ends.bind h ?_
  rintro yielded middle ⟨hkept, hproperty⟩
  refine (hnext yielded middle hkept hproperty).mono ?_ fun _ _ hmore ↦ hkept.trans hmore
  rintro _ _ ⟨hmore, hfurther⟩
  exact ⟨hkept.trans hmore, hfurther⟩

theorem Adds.pure {yielded : α} (h : property yielded draft) :
    Adds (Pure.pure yielded) draft property :=
  Ends.pure ⟨.refl draft, h⟩

theorem Adds.throw (error : CompileError) : Adds (MonadExcept.throw error) draft property :=
  Ends.throw (.refl draft)

theorem adds_instruction {opcode : Opcode} {operands : List Nat}
    (hlength : operands.length = opcode.widths.length) :
    Adds (instruction opcode operands) draft fun code after ↦
      after = draft ∧ code = [⟨opcode, operands⟩] ∧ Instruction.Fits ⟨opcode, operands⟩ := by
  unfold Adds Ends instruction
  cases h : Instruction.oversized? opcode.widths operands with
  | some operand => exact .refl draft
  | none =>
    exact ⟨.refl draft, rfl, rfl, Instruction.fits_of_oversized?_eq_none hlength h⟩

/-- Code behind what was assembled before. -/
theorem Adds.after {first : Draft} {code : List Instruction}
    {assembly : Assembly (List Instruction)}
    (h : Adds assembly draft fun code after ↦ draft.Numbers after code)
    (hcode : first.Numbers draft code) :
    Adds assembly draft fun more after ↦ first.Numbers after (code ++ more) :=
  Ends.mono h (fun _ _ hdone ↦ ⟨hdone.1, hcode.append hdone.2⟩) fun _ _ hfailed ↦ hfailed

/-- An instruction that sets no global, behind the code so far. -/
theorem adds_instruction_after {first : Draft} {opcode : Opcode} {operands : List Nat}
    {code : List Instruction} (hcode : first.Numbers draft code)
    (hlength : operands.length = opcode.widths.length) (hopcode : opcode ≠ .setGlobal) :
    Adds (do return code ++ (← instruction opcode operands)) draft fun code after ↦
      first.Numbers after code := by
  refine (adds_instruction hlength).bind ?_
  rintro _ after _ ⟨rfl, rfl, hfits⟩
  exact .pure (hcode.append (.single after hfits (Instruction.sets?_of_ne hopcode)))

theorem adds_only_instruction {opcode : Opcode} {operands : List Nat}
    (hlength : operands.length = opcode.widths.length) (hopcode : opcode ≠ .setGlobal) :
    Adds (instruction opcode operands) draft fun code after ↦ draft.Numbers after code := by
  have h : Adds (do return [] ++ (← instruction opcode operands)) draft fun code after ↦
      draft.Numbers after code := adds_instruction_after (.nil draft) hlength hopcode
  simpa using h

theorem adds_addConstant (constant : Label → Value) (h : ∀ label, (constant label).Quiet) :
    Adds (addConstant constant) draft fun _ after ↦ draft.Numbers after [] := by
  have hkept : draft.Kept
      { draft with constants := draft.constants.push (constant (.literal draft.constants.size)) } :=
    ⟨.refl _, fun hpool ↦ hpool.push (h _)⟩
  exact ⟨hkept, .of_kept hkept⟩

/-- Outside of functions a new name gets the next global. -/
theorem adds_define (name : String) :
    Adds (define name) draft fun symbol after ↦
      draft.Kept after ∧
      (draft.scopes.outer = [] → symbol.place = .global ∧ symbol.index = draft.globals ∧
        after.globals = draft.globals + 1) ∧
      (draft.scopes.outer ≠ [] → symbol.place = .localSlot) := by
  have hkept : draft.Kept { draft with scopes := (draft.scopes.define name).2 } :=
    ⟨Scopes.define_grown draft.scopes name, id⟩
  refine ⟨hkept, hkept, ?_⟩
  obtain ⟨constants, current, outer⟩ := draft
  cases outer <;> simp [Scope.bind, Draft.globals, Scopes.limits, Scope.limits]

theorem adds_resolve (name : String) :
    Adds (resolve name) draft fun _ after ↦ draft.Numbers after [] := by
  unfold Adds Ends resolve
  cases h : draft.scopes.resolve name with
  | none => exact .refl draft
  | some found =>
    have hkept : draft.Kept { draft with scopes := found.2 } :=
      ⟨Scopes.grown_resolveFrom h, id⟩
    exact ⟨hkept, .of_kept hkept⟩

theorem adds_load (symbol : Symbol) :
    Adds (load symbol) draft fun code after ↦ draft.Numbers after code := by
  unfold load
  split <;> exact adds_only_instruction rfl (by decide)

theorem adds_loadAll (symbols : List Symbol) :
    Adds (loadAll symbols) draft fun code after ↦ draft.Numbers after code := by
  induction symbols generalizing draft with
  | nil => exact .pure (.nil draft)
  | cons symbol rest ih =>
    exact (adds_load symbol).bind fun _ _ _ hfirst ↦ ih.bind fun _ _ _ hothers ↦
      .pure (hfirst.append hothers)

/-- Leaving a function again. -/
theorem kept_leave {name : Option String} {parameters : List String} {after : Draft}
    (h : Draft.Kept { draft with scopes := enter name parameters draft.scopes } after) :
    draft.Kept { after with scopes := after.scopes.leave?.getD {} } :=
  ⟨h.scopes.leave.2, h.quiet⟩

/-- What is assembled inside a function sets no global. -/
theorem adds_inFunction (name : Option String) (parameters : List String)
    {body : Assembly (List Instruction)}
    (hbody : ∀ inner, Adds body inner fun code after ↦ inner.Numbers after code) :
    Adds (inFunction name parameters body) draft fun (code, _) after ↦
      (∀ instruction ∈ code, instruction.Fits) ∧ sets code = [] ∧ draft.Numbers after [] := by
  have hinner := hbody { draft with scopes := enter name parameters draft.scopes }
  unfold Adds Ends at hinner ⊢
  unfold inFunction
  cases hassemble : body { draft with scopes := enter name parameters draft.scopes } with
  | error error after =>
    rw [hassemble] at hinner
    exact kept_leave hinner
  | ok code after =>
    rw [hassemble] at hinner
    obtain ⟨hkept, hnumbers⟩ := hinner
    have hleft := kept_leave hkept
    refine ⟨hleft, hnumbers.fits, hnumbers.inside ?_, .of_kept hleft⟩
    simp only [Scopes.outer_enter]
    exact List.cons_ne_nil _ _

theorem adds_endBody {first : Draft} {returns : Bool} {code : List Instruction}
    (h : first.Numbers draft code) :
    Adds (endBody returns code) draft fun whole after ↦ first.Numbers after whole := by
  cases returns with
  | true => exact .pure h
  | false => exact adds_instruction_after h rfl (by decide)

end Assembly

/-! ### Programs -/

open Assembly

theorem Part.closings_ne_setGlobal {opcode : Opcode} (h : opcode ∈ closings) :
    opcode ≠ .setGlobal := by
  rintro rfl
  exact absurd h (by decide)

namespace Part

/-- The code of the part sets only new globals. -/
abbrev NumbersGlobals (part : Part) : Prop :=
  ∀ start draft, Adds (part.assemble start) draft fun code after ↦ draft.Numbers after code

theorem numbers_inOrder {parts : List Part} (h : ∀ part ∈ parts, part.NumbersGlobals) (start : Nat)
    (draft : Draft) :
    Adds (assembleInOrder parts start) draft fun code after ↦ draft.Numbers after code := by
  induction parts generalizing start draft with
  | nil => exact .pure (.nil draft)
  | cons part rest ih =>
    rw [List.forall_mem_cons] at h
    exact (h.1 start draft).bind fun _ _ _ hfirst ↦ (ih h.2 _ _).bind fun _ _ _ hothers ↦
      .pure (hfirst.append hothers)

theorem numbers_option {part? : Option Part} (h : ∀ part ∈ part?, part.NumbersGlobals) (start : Nat)
    (draft : Draft) :
    Adds (assembleOption part? start) draft fun code after ↦ draft.Numbers after code := by
  cases part? with
  | some part => exact h part rfl start draft
  | none =>
    change Adds (instruction .null []) draft _
    exact adds_only_instruction rfl (by decide)

/-- Both parts of a branch with the jumps around them. -/
theorem numbers_branch {condition consequence : Part} {alternative : Option Part}
    (hcondition : condition.NumbersGlobals) (hconsequence : consequence.NumbersGlobals)
    (halternative : ∀ part ∈ alternative, part.NumbersGlobals) (start : Nat) (draft : Draft) :
    Adds ((Shape.branch condition consequence alternative).assemble start) draft
      fun code after ↦ draft.Numbers after code := by
  refine (hcondition start draft).bind fun tested _ _ htested ↦ ?_
  refine (hconsequence _ _).bind fun taken _ _ htaken ↦ ?_
  refine (adds_instruction rfl).bind ?_
  rintro _ after _ ⟨rfl, rfl, hpass⟩
  refine (numbers_option halternative _ after).bind fun other _ _ hother ↦ ?_
  refine (adds_instruction rfl).bind ?_
  rintro _ last _ ⟨rfl, rfl, hfinish⟩
  refine .pure ?_
  have hrest := (htested.append htaken).append hother |>.insert hfinish rfl
  rw [List.append_assoc] at hrest
  simpa using hrest.insert hpass rfl

theorem numbers_function (parameters : List String) {body : List Stmt} (name : Option String)
    (hbody : (stmts body .giveBack).NumbersGlobals) (start : Nat) (draft : Draft) :
    Adds ((Shape.function parameters body name).assemble start) draft
      fun code after ↦ draft.Numbers after code := by
  refine (adds_inFunction name parameters fun inner ↦ (hbody 0 inner).bind
    fun _ _ _ hcode ↦ adds_endBody hcode).bind ?_
  rintro ⟨code, scope⟩ _ _ ⟨hfits, hsets, hbody⟩
  refine (adds_loadAll scope.captured).bind fun loads _ _ hloads ↦ ?_
  refine (adds_addConstant (fun label ↦ .routine label
    ⟨(encodeAll code).toArray, scope.definitions, parameters.length⟩)
    fun _ ↦ ⟨code, rfl, hfits, hsets⟩).bind fun entry _ _ hadded ↦ ?_
  have hwhole := (hbody.append hloads).append hadded
  rw [List.append_nil] at hwhole
  exact adds_instruction_after hwhole rfl (by decide)

/-- A `let` outside of functions sets the global that it is given, one inside sets a local. -/
theorem numbers_binding (name : String) {value : Part} (hvalue : value.NumbersGlobals) (start : Nat)
    (draft : Draft) :
    Adds ((Shape.binding name value).assemble start) draft
      fun code after ↦ draft.Numbers after code := by
  refine (adds_define name).bind ?_
  rintro symbol defined _ ⟨hkept, htop, hinner⟩
  refine (hvalue start defined).bind fun code after _ hcode ↦ ?_
  by_cases houter : draft.scopes.outer = []
  · obtain ⟨hplace, hindex, hglobals⟩ := htop houter
    dsimp only
    rw [if_pos hplace, hindex]
    refine (adds_instruction rfl).bind ?_
    rintro _ last _ ⟨rfl, rfl, hfits⟩
    exact .pure (hcode.bound hkept houter hglobals hfits)
  · dsimp only
    rw [if_neg (by simp [hinner houter])]
    have hwhole := (Draft.Numbers.of_kept hkept).append hcode
    exact adds_instruction_after hwhole rfl (by decide)

theorem numbers (part : Part) : part.NumbersGlobals := by
  induction part using Part.induction with
  | step part ih =>
    intro start draft
    rw [part.assemble_eq]
    have hregular := part.regular
    generalize part.shape = shape at ih hregular
    cases hregular with
    | integer value =>
      refine (adds_addConstant (fun _ ↦ .integer value) fun _ ↦ trivial).bind ?_
      exact fun entry after _ hadded ↦ (adds_only_instruction rfl (by decide)).after hadded
    | string content =>
      refine (adds_addConstant (.string · content) fun _ ↦ trivial).bind ?_
      exact fun entry after _ hadded ↦ (adds_only_instruction rfl (by decide)).after hadded
    | ident name =>
      exact (adds_resolve name).bind fun symbol _ _ hresolved ↦ (adds_load symbol).after hresolved
    | sequence parts =>
      refine (numbers_inOrder ih start draft).bind fun code _ _ hcode ↦ ?_
      simp only [Closing.assemble, pure_bind, List.append_nil]
      exact .pure hcode
    | failure parts error =>
      exact (numbers_inOrder ih start draft).bind fun _ _ _ _ ↦ .throw error
    | operation parts hopcode hlength =>
      refine (numbers_inOrder ih start draft).bind fun code _ _ hcode ↦ ?_
      exact adds_instruction_after hcode hlength (closings_ne_setGlobal hopcode)
    | branch condition consequence alternative =>
      simp only [Shape.pieces, List.forall_mem_cons, Option.mem_toList] at ih
      exact numbers_branch ih.1 ih.2.1 ih.2.2 start draft
    | function parameters body name =>
      exact numbers_function parameters name (ih _ List.mem_cons_self) start draft
    | binding name value => exact numbers_binding name (ih _ List.mem_cons_self) start draft

end Part

theorem Stmt.assembleAll_numbers (stmts : List Stmt) (ending : Ending) (start : Nat)
    (draft : Draft) : Adds (Stmt.assembleAll stmts ending start) draft
      fun code after ↦ draft.Numbers after code :=
  (Part.stmts stmts ending).numbers start draft

end StackScript
