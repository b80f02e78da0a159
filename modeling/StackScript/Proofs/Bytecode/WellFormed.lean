import StackScript.Proofs.Bytecode.Part
import StackScript.Proofs.Scope.Limits

/-!
Code whose operands refer to what there is. Each constant is an integer, a string or a compiled
function, as the instruction that names it wants it; slots, captured values and provided functions
are within their numbers; and a jump leads forward, over whole instructions of the same code. All
code that is assembled is of this kind, and it stays so while constants and names are added
(`Part.keeps`), also if its assembly fails later on.
-/

set_option autoImplicit false
set_option relaxedAutoImplicit false

namespace StackScript

open Instruction (size encodeAll)

/-- Every constant stays under its entry. -/
def Extends (first second : Array Value) : Prop :=
  ∀ (entry : Nat) (constant : Value), first[entry]? = some constant →
    second[entry]? = some constant

theorem Extends.refl (constants : Array Value) : Extends constants constants :=
  fun _ _ h ↦ h

theorem Extends.trans {first second third : Array Value} (h : Extends first second)
    (hnext : Extends second third) : Extends first third :=
  fun entry constant hentry ↦ hnext entry constant (h entry constant hentry)

theorem extends_push (constants : Array Value) (constant : Value) :
    Extends constants (constants.push constant) := by
  intro entry other h
  obtain ⟨hentry, hother⟩ := Array.getElem?_eq_some_iff.mp h
  rw [Array.getElem?_push_lt hentry, hother]

/-- The code of a function reads no captured value from the number `count` on. -/
def Routine.Takes (count : Nat) (routine : Routine) : Prop :=
  ∃ code : List Instruction, routine.code.toList = encodeAll code ∧
    (∀ instruction ∈ code, instruction.Fits) ∧
    ∀ index, ⟨.getFree, [index]⟩ ∈ code → index < count

namespace Instruction

/-- The operands refer to what there is. -/
def Valid (constants : Array Value) (limits : Limits) (instruction : Instruction) : Prop :=
  match instruction.opcode, instruction.operands with
  | .constant, [entry] => ∃ constant, constants[entry]? = some constant ∧
    (constant.kind = .integer ∨ constant.kind = .string)
  | .closure, [entry, count] => ∃ label routine,
    constants[entry]? = some (.routine label routine) ∧ routine.Takes count
  | .getGlobal, [index] | .setGlobal, [index] => index < limits.globals
  | .getLocal, [index] | .setLocal, [index] => index < limits.locals
  | .getFree, [index] => index < limits.free
  | .getBuiltin, [index] => index < Builtin.all.length
  | .currentClosure, _ => limits.inFunction
  | _, _ => True

theorem Valid.mono {constants more : Array Value} {limits grown : Limits}
    {instruction : Instruction} (h : instruction.Valid constants limits)
    (hconstants : Extends constants more) (hlimits : limits.Grown grown) :
    instruction.Valid more grown := by
  unfold Valid at h ⊢
  split at h
  · obtain ⟨constant, hentry, hkind⟩ := h
    exact ⟨constant, hconstants _ _ hentry, hkind⟩
  · obtain ⟨label, routine, hentry, htakes⟩ := h
    exact ⟨label, routine, hconstants _ _ hentry, htakes⟩
  · exact Nat.lt_of_lt_of_le h hlimits.globals
  · exact Nat.lt_of_lt_of_le h hlimits.globals
  · exact Nat.lt_of_lt_of_le h hlimits.locals
  · exact Nat.lt_of_lt_of_le h hlimits.locals
  · exact Nat.lt_of_lt_of_le h hlimits.free
  · exact h
  · exact hlimits.inFunction ▸ h
  · trivial

/-- Where a jump leads. -/
def target? (instruction : Instruction) : Option Nat :=
  match instruction.opcode, instruction.operands with
  | .jump, [target] | .jumpNotTruthy, [target] => some target
  | _, _ => none

/-- A jump in code that begins at `start` leads over whole instructions that follow it. -/
def Forward (start : Nat) : List Instruction → Prop
  | [] => True
  | instruction :: rest =>
    (∀ target, instruction.target? = some target → ∃ skipped others,
      rest = skipped ++ others ∧ target = start + instruction.length + size skipped) ∧
    Forward (start + instruction.length) rest

theorem Forward.append {start : Nat} {first second : List Instruction}
    (hfirst : Forward start first) (hsecond : Forward (start + size first) second) :
    Forward start (first ++ second) := by
  induction first generalizing start with
  | nil => simpa using hsecond
  | cons instruction rest ih =>
    refine ⟨?_, ih hfirst.2 (by simpa [Nat.add_assoc] using hsecond)⟩
    intro target htarget
    obtain ⟨skipped, others, hrest, hposition⟩ := hfirst.1 target htarget
    exact ⟨skipped, others ++ second, by simp [hrest], hposition⟩

theorem Forward.right {start : Nat} {first second : List Instruction}
    (h : Forward start (first ++ second)) : Forward (start + size first) second := by
  induction first generalizing start with
  | nil => simpa using h
  | cons instruction rest ih => simpa [Nat.add_assoc] using ih h.2

/-- Code that begins at `start` and is in order. -/
structure WellFormed (constants : Array Value) (limits : Limits) (start : Nat)
    (code : List Instruction) : Prop where
  fits : ∀ instruction ∈ code, instruction.Fits
  valid : ∀ instruction ∈ code, instruction.Valid constants limits
  forward : Forward start code

namespace WellFormed

variable {constants more : Array Value} {limits grown : Limits} {start : Nat}
  {first second : List Instruction}

theorem mono (h : WellFormed constants limits start first) (hconstants : Extends constants more)
    (hlimits : limits.Grown grown) : WellFormed more grown start first :=
  ⟨h.fits, fun instruction hmem ↦ (h.valid instruction hmem).mono hconstants hlimits, h.forward⟩

theorem nil : WellFormed constants limits start [] :=
  ⟨by simp, by simp, trivial⟩

theorem append (hfirst : WellFormed constants limits start first)
    (hsecond : WellFormed constants limits (start + size first) second) :
    WellFormed constants limits start (first ++ second) := by
  refine ⟨?_, ?_, hfirst.forward.append hsecond.forward⟩
  · intro instruction hmem
    exact (List.mem_append.mp hmem).elim (hfirst.fits instruction) (hsecond.fits instruction)
  · intro instruction hmem
    exact (List.mem_append.mp hmem).elim (hfirst.valid instruction) (hsecond.valid instruction)

/-- An instruction that is no jump. -/
theorem single {instruction : Instruction} (hfits : instruction.Fits)
    (hvalid : instruction.Valid constants limits) (htarget : instruction.target? = none) :
    WellFormed constants limits start [instruction] := by
  refine ⟨by simpa using hfits, by simpa using hvalid, ?_, trivial⟩
  intro target h
  rw [htarget] at h
  cases h

/-- A jump over the first of two pieces of code to the second. -/
theorem jump {instruction : Instruction} (hfits : instruction.Fits)
    (hvalid : instruction.Valid constants limits)
    (hrest : WellFormed constants limits (start + instruction.length) (first ++ second))
    (htarget : instruction.target? = some (start + instruction.length + size first)) :
    WellFormed constants limits start (instruction :: (first ++ second)) := by
  refine ⟨?_, ?_, ?_, hrest.forward⟩
  · intro other hmem
    rcases List.mem_cons.mp hmem with rfl | hother
    · exact hfits
    · exact hrest.fits other hother
  · intro other hmem
    rcases List.mem_cons.mp hmem with rfl | hother
    · exact hvalid
    · exact hrest.valid other hother
  · intro target h
    rw [htarget] at h
    cases h
    exact ⟨first, second, rfl, rfl⟩

end WellFormed

end Instruction

open Instruction (WellFormed)

/-! ### Constants -/

/-- The code of a function that takes so many values from around it is in order. -/
def Routine.WellFormed (constants : Array Value) (globals free : Nat) (routine : Routine) : Prop :=
  ∃ code : List Instruction, routine.code.toList = encodeAll code ∧
    Instruction.WellFormed constants ⟨globals, routine.locals, free, true⟩ 0 code

theorem Routine.WellFormed.takes {constants : Array Value} {globals free : Nat} {routine : Routine}
    (h : routine.WellFormed constants globals free) : routine.Takes free := by
  obtain ⟨code, hcode, hwell⟩ := h
  exact ⟨code, hcode, hwell.fits, fun index hmem ↦ hwell.valid _ hmem⟩

/-- Code that is in order for some number of captured values is so for every number that it does not
read beyond. -/
theorem Routine.WellFormed.of_takes {constants : Array Value} {globals free count : Nat}
    {routine : Routine} (h : routine.WellFormed constants globals free)
    (htakes : routine.Takes count) : routine.WellFormed constants globals count := by
  obtain ⟨code, hcode, hwell⟩ := h
  obtain ⟨other, hother, hfits, hfree⟩ := htakes
  obtain rfl := Instruction.eq_of_encodeAll_eq hwell.fits hfits (hcode.symm.trans hother)
  refine ⟨code, hcode, hwell.fits, fun instruction hmem ↦ ?_, hwell.forward⟩
  have hvalid := hwell.valid instruction hmem
  unfold Instruction.Valid at hvalid ⊢
  split at hvalid
  case h_7 hopcode hoperands =>
    obtain ⟨opcode, operands⟩ := instruction
    subst hopcode hoperands
    exact hfree _ hmem
  all_goals exact hvalid

theorem Routine.WellFormed.mono {constants more : Array Value} {globals moreGlobals free : Nat}
    {routine : Routine} (h : routine.WellFormed constants globals free)
    (hconstants : Extends constants more) (hglobals : globals ≤ moreGlobals) :
    routine.WellFormed more moreGlobals free := by
  obtain ⟨code, hcode, hwell⟩ := h
  exact ⟨code, hcode, hwell.mono hconstants ⟨hglobals, Nat.le_refl _, Nat.le_refl _, rfl⟩⟩

/-- A constant is an integer, a string or a function whose code is in order. -/
def Value.ValidConstant (constants : Array Value) (globals : Nat) : Value → Prop
  | integer _ | string _ _ => True
  | routine _ body => ∃ free, body.WellFormed constants globals free
  | _ => False

theorem Value.ValidConstant.mono {constants more : Array Value} {globals moreGlobals : Nat}
    {constant : Value} (h : constant.ValidConstant constants globals)
    (hconstants : Extends constants more) (hglobals : globals ≤ moreGlobals) :
    constant.ValidConstant more moreGlobals := by
  cases constant with
  | routine label body =>
    obtain ⟨free, hbody⟩ := h
    exact ⟨free, hbody.mono hconstants hglobals⟩
  | _ => exact h

def ValidPool (constants : Array Value) (globals : Nat) : Prop :=
  ∀ (entry : Nat) (constant : Value), constants[entry]? = some constant →
    constant.ValidConstant constants globals

theorem ValidPool.mono {constants : Array Value} {globals more : Nat}
    (h : ValidPool constants globals) (hglobals : globals ≤ more) : ValidPool constants more :=
  fun entry constant hentry ↦ (h entry constant hentry).mono (.refl _) hglobals

theorem ValidPool.push {constants : Array Value} {globals : Nat} {constant : Value}
    (h : ValidPool constants globals) (hconstant : constant.ValidConstant constants globals) :
    ValidPool (constants.push constant) globals := by
  intro entry other hentry
  rw [Array.getElem?_push] at hentry
  split at hentry
  · cases hentry
    exact hconstant.mono (extends_push _ _) (Nat.le_refl _)
  · exact (h entry other hentry).mono (extends_push _ _) (Nat.le_refl _)

/-! ### Drafts -/

namespace Draft

structure Sound (draft : Draft) : Prop where
  scopes : draft.scopes.Bounded
  constants : ValidPool draft.constants draft.scopes.limits.globals

structure Grown (before after : Draft) : Prop where
  scopes : before.scopes.Grown after.scopes
  constants : Extends before.constants after.constants

theorem Grown.refl (draft : Draft) : draft.Grown draft :=
  ⟨.refl _, .refl _⟩

theorem Grown.trans {first second third : Draft} (h : first.Grown second)
    (hnext : second.Grown third) : first.Grown third :=
  ⟨h.scopes.trans hnext.scopes, h.constants.trans hnext.constants⟩

/-- Code that is in order stays so while the draft grows. -/
def Allows (draft : Draft) (start : Nat) (code : List Instruction) : Prop :=
  WellFormed draft.constants draft.scopes.limits start code

theorem Allows.mono {draft grown : Draft} {start : Nat} {code : List Instruction}
    (h : draft.Allows start code) (hgrown : draft.Grown grown) : grown.Allows start code :=
  WellFormed.mono h hgrown.constants hgrown.scopes.limits

end Draft

namespace Assembly

variable {α β : Type}

/-- From a sound draft the assembly leads to a larger one that is sound, also if it fails; what it
yields satisfies the property. -/
def Keeps (assembly : Assembly α) (draft : Draft) (property : α → Draft → Prop) : Prop :=
  draft.Sound →
    match assembly draft with
    | .ok yielded after => after.Sound ∧ draft.Grown after ∧ property yielded after
    | .error _ after => after.Sound ∧ draft.Grown after

variable {draft : Draft} {property : α → Draft → Prop} {further : β → Draft → Prop}

theorem Keeps.bind {assembly : Assembly α} {next : α → Assembly β}
    (h : Keeps assembly draft property)
    (hnext : ∀ yielded after, draft.Grown after → property yielded after →
      Keeps (next yielded) after further) :
    Keeps (assembly >>= next) draft further := by
  intro hsound
  have hfirst := h hsound
  cases hassembly : assembly draft with
  | error error after =>
    rw [hassembly] at hfirst
    rw [bind_of_error hassembly]
    exact hfirst
  | ok yielded middle =>
    rw [hassembly] at hfirst
    obtain ⟨hmiddle, hgrown, hproperty⟩ := hfirst
    rw [bind_of_ok hassembly]
    have hlast := hnext yielded middle hgrown hproperty hmiddle
    cases hrest : next yielded middle with
    | ok _ after =>
      rw [hrest] at hlast
      exact ⟨hlast.1, hgrown.trans hlast.2.1, hlast.2.2⟩
    | error _ after =>
      rw [hrest] at hlast
      exact ⟨hlast.1, hgrown.trans hlast.2⟩

theorem Keeps.pure {yielded : α} (h : draft.Sound → property yielded draft) :
    Keeps (Pure.pure yielded) draft property :=
  fun hsound ↦ ⟨hsound, .refl _, h hsound⟩

theorem Keeps.throw (error : CompileError) :
    Keeps (MonadExcept.throw error) draft property :=
  fun hsound ↦ ⟨hsound, .refl _⟩

theorem Keeps.mono {assembly : Assembly α} {weaker : α → Draft → Prop}
    (h : Keeps assembly draft property)
    (hweaker : ∀ yielded after, draft.Grown after → property yielded after → weaker yielded after) :
    Keeps assembly draft weaker := by
  intro hsound
  have hfirst := h hsound
  cases hassembly : assembly draft with
  | ok yielded after =>
    rw [hassembly] at hfirst
    exact ⟨hfirst.1, hfirst.2.1, hweaker yielded after hfirst.2.1 hfirst.2.2⟩
  | error error after =>
    rw [hassembly] at hfirst
    exact hfirst

theorem keeps_instruction {opcode : Opcode} {operands : List Nat}
    (hlength : operands.length = opcode.widths.length) :
    Keeps (instruction opcode operands) draft fun code after ↦
      after = draft ∧ code = [⟨opcode, operands⟩] ∧ Instruction.Fits ⟨opcode, operands⟩ := by
  intro hsound
  unfold instruction
  cases h : Instruction.oversized? opcode.widths operands with
  | some operand => exact ⟨hsound, .refl _⟩
  | none =>
    exact ⟨hsound, .refl _, rfl, rfl, Instruction.fits_of_oversized?_eq_none hlength h⟩

/-- An instruction that is no jump, behind the code so far. -/
theorem keeps_instruction_after {opcode : Opcode} {operands : List Nat} {start : Nat}
    {code : List Instruction} (hcode : draft.Allows start code)
    (hlength : operands.length = opcode.widths.length)
    (hvalid : Instruction.Valid draft.constants draft.scopes.limits ⟨opcode, operands⟩)
    (htarget : Instruction.target? ⟨opcode, operands⟩ = none) :
    Keeps (do return code ++ (← instruction opcode operands)) draft fun code after ↦
      after.Allows start code := by
  refine (keeps_instruction hlength).bind ?_
  rintro _ after _ ⟨rfl, rfl, hfits⟩
  exact .pure fun _ ↦ WellFormed.append hcode (.single hfits hvalid htarget)

theorem keeps_addConstant (constant : Label → Value)
    (h : ∀ label, (constant label).ValidConstant draft.constants draft.scopes.limits.globals) :
    Keeps (addConstant constant) draft fun entry after ↦
      ∃ label, after.constants[entry]? = some (constant label) := by
  intro hsound
  refine ⟨⟨hsound.scopes, hsound.constants.push (h _)⟩, ⟨.refl _, extends_push _ _⟩,
    .literal draft.constants.size, ?_⟩
  exact Array.getElem?_push_size

theorem keeps_define (name : String) :
    Keeps (define name) draft fun symbol after ↦ symbol.Within after.scopes.limits ∧
      (symbol.place = .global ∨ symbol.place = .localSlot) := by
  intro hsound
  have hgrown := Scopes.define_grown draft.scopes name
  obtain ⟨hbounded, hwithin⟩ := hsound.scopes.define name
  refine ⟨⟨hbounded, hsound.constants.mono hgrown.limits.globals⟩, ⟨hgrown, .refl _⟩, hwithin, ?_⟩
  change (if draft.scopes.outer.isEmpty then Symbol.Place.global else .localSlot) = _ ∨
    (if draft.scopes.outer.isEmpty then Symbol.Place.global else .localSlot) = _
  split
  · exact .inl rfl
  · exact .inr rfl

theorem keeps_resolve (name : String) :
    Keeps (resolve name) draft fun symbol after ↦ symbol.Within after.scopes.limits := by
  intro hsound
  unfold resolve
  cases h : draft.scopes.resolve name with
  | none => exact ⟨hsound, .refl _⟩
  | some found =>
    obtain ⟨symbol, scopes⟩ := found
    obtain ⟨hbounded, hgrown, hwithin⟩ := hsound.scopes.resolve h
    exact ⟨⟨hbounded, hsound.constants.mono hgrown.limits.globals⟩, ⟨hgrown, .refl _⟩, hwithin⟩

theorem keeps_load {symbol : Symbol} (start : Nat) (h : symbol.Within draft.scopes.limits) :
    Keeps (load symbol) draft fun code after ↦ after = draft ∧ after.Allows start code := by
  unfold Symbol.Within at h
  have hplain : ∀ {opcode : Opcode} {operands : List Nat},
      operands.length = opcode.widths.length →
      Instruction.Valid draft.constants draft.scopes.limits ⟨opcode, operands⟩ →
      Instruction.target? ⟨opcode, operands⟩ = none →
      Keeps (instruction opcode operands) draft fun code after ↦
        after = draft ∧ after.Allows start code := by
    intro opcode operands hlength hvalid htarget
    refine (keeps_instruction hlength).mono ?_
    rintro _ after _ ⟨rfl, rfl, hfits⟩
    exact ⟨rfl, .single hfits hvalid htarget⟩
  unfold load
  cases hplace : symbol.place
  all_goals
    rw [hplace] at h
    exact hplain rfl h rfl

theorem keeps_loadAll {symbols : List Symbol} (start : Nat)
    (h : ∀ symbol ∈ symbols, symbol.Within draft.scopes.limits) :
    Keeps (loadAll symbols) draft fun code after ↦ after = draft ∧ after.Allows start code := by
  induction symbols generalizing start with
  | nil => exact .pure fun _ ↦ ⟨rfl, .nil⟩
  | cons symbol rest ih =>
    refine (keeps_load start (h symbol List.mem_cons_self)).bind ?_
    rintro first after _ ⟨rfl, hfirst⟩
    refine (ih (start + size first) fun other hmem ↦
      h other (List.mem_cons_of_mem _ hmem)).bind ?_
    rintro others after _ ⟨rfl, hothers⟩
    exact .pure fun _ ↦ ⟨rfl, WellFormed.append hfirst hothers⟩

/-- The globals are the same ones inside a function. -/
theorem globals_leave {name : Option String} {parameters : List String} {outer inner : Scopes}
    (h : (enter name parameters outer).Grown inner) :
    inner.limits.globals = (inner.leave?.getD {}).limits.globals := by
  have houter := h.outer
  rw [Scopes.outer_enter] at houter
  obtain ⟨around, outer, _, _, hinner⟩ := List.forall₂_cons_left_iff.mp houter
  simp only [Scopes.limits, Scope.limits, Scopes.leave?, hinner, Option.getD_some]
  cases outer <;> rfl

theorem sound_enter (h : draft.Sound) (name : Option String) (parameters : List String) :
    Draft.Sound { draft with scopes := enter name parameters draft.scopes } := by
  refine ⟨h.scopes.enter name parameters, ?_⟩
  have henter := globals_leave (.refl (enter name parameters draft.scopes))
  have hleave : ((enter name parameters draft.scopes).leave?.getD {}) = draft.scopes := by
    simp only [Scopes.leave?, Scopes.outer_enter, Option.getD_some]
  rw [hleave] at henter
  exact henter ▸ h.constants

/-- What is assembled inside a function is in order for the function. -/
theorem keeps_inFunction (name : Option String) (parameters : List String)
    {body : Assembly (List Instruction)}
    (h : ∀ inner, Keeps body inner fun code after ↦ after.Allows 0 code) :
    Keeps (inFunction name parameters body) draft fun (code, scope) after ↦
      (∀ symbol ∈ scope.captured, symbol.Within after.scopes.limits) ∧
      WellFormed after.constants ⟨after.scopes.limits.globals, scope.definitions,
        scope.captured.length, true⟩ 0 code := by
  intro hsound
  have hinner := h { draft with scopes := enter name parameters draft.scopes }
    (sound_enter hsound name parameters)
  unfold inFunction
  cases hbody : body { draft with scopes := enter name parameters draft.scopes } with
  | ok code after =>
    rw [hbody] at hinner
    obtain ⟨hafter, hgrown, hallows⟩ := hinner
    obtain ⟨hbounded, hscopes, hcaptured⟩ := hafter.scopes.leave hgrown.scopes
    refine ⟨⟨hbounded, ?_⟩, ⟨hscopes, hgrown.constants⟩, hcaptured, ?_⟩
    · exact globals_leave hgrown.scopes ▸ hafter.constants
    · have houter := hgrown.scopes.outer
      rw [Scopes.outer_enter] at houter
      obtain ⟨around, outer, _, _, hchain⟩ := List.forall₂_cons_left_iff.mp houter
      have hlimits : after.scopes.limits = ⟨(after.scopes.leave?.getD {}).limits.globals,
          after.scopes.current.definitions, after.scopes.current.captured.length, true⟩ := by
        rw [← globals_leave hgrown.scopes]
        simp only [Scopes.limits, Scope.limits, hchain]
      rw [Draft.Allows, hlimits] at hallows
      exact hallows
  | error error after =>
    rw [hbody] at hinner
    obtain ⟨hafter, hgrown⟩ := hinner
    obtain ⟨hbounded, hscopes, _⟩ := hafter.scopes.leave hgrown.scopes
    exact ⟨⟨hbounded, globals_leave hgrown.scopes ▸ hafter.constants⟩, hscopes, hgrown.constants⟩

end Assembly

/-! ### Programs -/

section Programs

variable {draft : Draft}

open Assembly

theorem keeps_endBody {returns : Bool} {code : List Instruction} (h : draft.Allows 0 code) :
    Keeps (endBody returns code) draft fun whole after ↦ after.Allows 0 whole := by
  cases returns with
  | true => exact .pure fun _ ↦ h
  | false => exact keeps_instruction_after h rfl trivial rfl

/-- The instruction behind parts refers to nothing. -/
theorem Instruction.valid_of_closing {opcode : Opcode} (h : opcode ∈ Part.closings)
    (operands : List Nat) (constants : Array Value) (limits : Limits) :
    Valid constants limits ⟨opcode, operands⟩ := by
  simp only [Part.closings, List.mem_cons, List.not_mem_nil, or_false] at h
  rcases h with rfl | rfl | rfl | rfl | rfl | rfl | rfl | rfl | rfl | rfl | rfl | rfl | rfl | rfl |
    rfl | rfl | rfl <;> exact trivial

theorem Instruction.target?_of_closing {opcode : Opcode} (h : opcode ∈ Part.closings)
    (operands : List Nat) : target? ⟨opcode, operands⟩ = none := by
  unfold target?
  split
  · next hopcode _ =>
    obtain rfl : opcode = .jump := hopcode
    exact absurd h (by decide)
  · next hopcode _ =>
    obtain rfl : opcode = .jumpNotTruthy := hopcode
    exact absurd h (by decide)
  · rfl

namespace Part

/-- The part keeps drafts in order, and its code is allowed in them. -/
abbrev KeepsDrafts (part : Part) : Prop :=
  ∀ start draft, Keeps (part.assemble start) draft fun code after ↦ after.Allows start code

theorem keeps_inOrder {parts : List Part} (h : ∀ part ∈ parts, part.KeepsDrafts) (start : Nat)
    (draft : Draft) :
    Keeps (assembleInOrder parts start) draft fun code after ↦ after.Allows start code := by
  induction parts generalizing start draft with
  | nil => exact .pure fun _ ↦ .nil
  | cons part rest ih =>
    rw [List.forall_mem_cons] at h
    refine (h.1 start draft).bind fun first after _ hfirst ↦ ?_
    refine (ih h.2 _ after).bind fun others last hgrown hothers ↦ ?_
    exact .pure fun _ ↦ WellFormed.append (hfirst.mono hgrown) hothers

theorem keeps_option {part? : Option Part} (h : ∀ part ∈ part?, part.KeepsDrafts) (start : Nat)
    (draft : Draft) :
    Keeps (assembleOption part? start) draft fun code after ↦ after.Allows start code := by
  cases part? with
  | some part => exact h part rfl start draft
  | none =>
    have hnull : Keeps (instruction .null []) draft _ := keeps_instruction rfl
    refine hnull.mono ?_
    rintro _ _ _ ⟨rfl, rfl, hfits⟩
    exact .single hfits trivial rfl

/-- Both parts of a branch with the jumps around them. -/
theorem keeps_branch {condition consequence : Part} {alternative : Option Part}
    (hcondition : condition.KeepsDrafts) (hconsequence : consequence.KeepsDrafts)
    (halternative : ∀ part ∈ alternative, part.KeepsDrafts) (start : Nat) (draft : Draft) :
    Keeps ((Shape.branch condition consequence alternative).assemble start) draft
      fun code after ↦ after.Allows start code := by
  refine (hcondition start draft).bind fun tested afterTest _ htested ↦ ?_
  refine (hconsequence _ afterTest).bind fun taken afterFirst hgrownFirst htaken ↦ ?_
  refine (keeps_instruction rfl).bind ?_
  rintro _ after _ ⟨rfl, rfl, hpass⟩
  refine (keeps_option halternative _ after).bind fun other afterSecond hgrownSecond hother ↦ ?_
  refine (keeps_instruction rfl).bind ?_
  rintro _ last _ ⟨rfl, rfl, hfinish⟩
  refine .pure fun _ ↦ ?_
  have htest := (htested.mono hgrownFirst).mono hgrownSecond
  have hfirst := htaken.mono hgrownSecond
  -- the second jump leads behind the second part, the first one over it
  have hpassed : WellFormed last.constants last.scopes.limits
      (start + size tested + 3 + size taken)
      (⟨.jump, [start + size tested + 3 + size taken + 3 + size other]⟩ :: (other ++ [])) :=
    WellFormed.jump hfinish trivial (WellFormed.append hother .nil) rfl
  have hrest : WellFormed last.constants last.scopes.limits (start + size tested + 3)
      ((taken ++ [⟨.jump, [start + size tested + 3 + size taken + 3 + size other]⟩]) ++ other) := by
    have h := WellFormed.append hfirst hpassed
    simpa using h
  have hwhole := WellFormed.append htest (WellFormed.jump hpass trivial hrest ?_)
  · simpa [Draft.Allows] using hwhole
  · simp only [Instruction.target?, Instruction.size_append]
    rfl

theorem keeps_literal {constant : Label → Value} (hconstant : ∀ label,
      (constant label).kind = .integer ∨ (constant label).kind = .string)
    (start : Nat) (draft : Draft) :
    Keeps ((Shape.literal constant).assemble start) draft fun code after ↦
      after.Allows start code := by
  refine (keeps_addConstant constant fun label ↦ ?_).bind ?_
  · have hkind := hconstant label
    generalize constant label = value at hkind ⊢
    cases value <;> first | trivial | simp [Value.kind] at hkind
  · rintro entry after _ ⟨label, hentry⟩
    refine (keeps_instruction rfl).mono ?_
    rintro _ _ _ ⟨rfl, rfl, hfits⟩
    exact .single hfits ⟨_, hentry, hconstant label⟩ rfl

theorem keeps_function (parameters : List String) {body : List Stmt} (name : Option String)
    (hbody : (stmts body .giveBack).KeepsDrafts) (start : Nat) (draft : Draft) :
    Keeps ((Shape.function parameters body name).assemble start) draft fun code after ↦
      after.Allows start code := by
  refine (keeps_inFunction name parameters fun inner ↦ (hbody 0 inner).bind
    fun code after _ hcode ↦ keeps_endBody hcode).bind ?_
  rintro ⟨code, scope⟩ after _ ⟨hcaptured, hcode⟩
  have hroutine : Routine.WellFormed after.constants after.scopes.limits.globals
      scope.captured.length
      ⟨(encodeAll code).toArray, scope.definitions, parameters.length⟩ :=
    ⟨code, rfl, hcode⟩
  refine (keeps_loadAll start hcaptured).bind ?_
  rintro loads _ _ ⟨rfl, hloads⟩
  refine (keeps_addConstant (fun label ↦ .routine label
    ⟨(encodeAll code).toArray, scope.definitions, parameters.length⟩)
    fun _ ↦ ⟨_, hroutine⟩).bind ?_
  rintro entry last hgrown ⟨label, hentry⟩
  exact keeps_instruction_after (hloads.mono hgrown) rfl ⟨label, _, hentry, hroutine.takes⟩ rfl

theorem keeps_binding (name : String) {value : Part} (hvalue : value.KeepsDrafts) (start : Nat)
    (draft : Draft) :
    Keeps ((Shape.binding name value).assemble start) draft fun code after ↦
      after.Allows start code := by
  refine (keeps_define name).bind ?_
  rintro symbol after _ ⟨hsymbol, hplace⟩
  refine (hvalue start after).bind fun code last hgrown hcode ↦ ?_
  have hwithin := hsymbol.mono hgrown.scopes.limits
  unfold Symbol.Within at hwithin
  rcases hplace with hplace | hplace
  · rw [hplace] at hwithin ⊢
    exact keeps_instruction_after hcode rfl hwithin rfl
  · rw [hplace] at hwithin ⊢
    exact keeps_instruction_after hcode rfl hwithin rfl

theorem keeps (part : Part) : part.KeepsDrafts := by
  induction part using Part.induction with
  | step part ih =>
    intro start draft
    rw [part.assemble_eq]
    have hregular := part.regular
    generalize part.shape = shape at ih hregular
    cases hregular with
    | integer value => exact keeps_literal (fun _ ↦ .inl rfl) start draft
    | string content => exact keeps_literal (fun _ ↦ .inr rfl) start draft
    | ident name =>
      refine (keeps_resolve name).bind fun symbol after _ hsymbol ↦ ?_
      exact (keeps_load start hsymbol).mono fun _ _ _ h ↦ h.2
    | sequence parts =>
      refine (keeps_inOrder ih start draft).bind fun code after _ hcode ↦ ?_
      simp only [Closing.assemble, pure_bind, List.append_nil]
      exact .pure fun _ ↦ hcode
    | failure parts error =>
      exact (keeps_inOrder ih start draft).bind fun _ _ _ _ ↦ .throw _
    | @operation parts opcode operands hopcode hlength =>
      refine (keeps_inOrder ih start draft).bind fun code after _ hcode ↦ ?_
      have hvalid :=
        Instruction.valid_of_closing hopcode operands after.constants after.scopes.limits
      exact keeps_instruction_after hcode hlength hvalid
        (Instruction.target?_of_closing hopcode operands)
    | branch condition consequence alternative =>
      simp only [Shape.pieces, List.forall_mem_cons, Option.mem_toList] at ih
      exact keeps_branch ih.1 ih.2.1 ih.2.2 start draft
    | function parameters body name =>
      exact keeps_function parameters name (ih _ List.mem_cons_self) start draft
    | binding name value => exact keeps_binding name (ih _ List.mem_cons_self) start draft

end Part

theorem Stmt.assembleAll_keeps (stmts : List Stmt) (ending : Ending) (start : Nat) (draft : Draft) :
    Keeps (Stmt.assembleAll stmts ending start) draft fun code after ↦ after.Allows start code :=
  (Part.stmts stmts ending).keeps start draft

end Programs

end StackScript
