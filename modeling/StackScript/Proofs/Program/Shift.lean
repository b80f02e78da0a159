import StackScript.Proofs.Bytecode.WellFormed

/-!
The same code at another offset. Only the targets of jumps tell where code begins, and names are
told apart by what they are bound to, not by the order in which they were bound. So what is
assembled at a later offset is the same code with its jumps shifted (`Part.shift`).
-/

set_option autoImplicit false
set_option relaxedAutoImplicit false

namespace StackScript

open Instruction (size encodeAll)

/-! ### Shifted code -/

namespace Instruction

/-- The instruction in code that was moved by so many bytes. -/
def shift (offset : Nat) : Instruction → Instruction
  | ⟨.jump, operands⟩ => ⟨.jump, operands.map (offset + ·)⟩
  | ⟨.jumpNotTruthy, operands⟩ => ⟨.jumpNotTruthy, operands.map (offset + ·)⟩
  | instruction => instruction

@[simp] theorem opcode_shift (offset : Nat) (instruction : Instruction) :
    (instruction.shift offset).opcode = instruction.opcode := by
  obtain ⟨opcode, operands⟩ := instruction
  cases opcode <;> rfl

@[simp] theorem length_shift (offset : Nat) (instruction : Instruction) :
    (instruction.shift offset).length = instruction.length := by
  simp only [length, opcode_shift]

@[simp] theorem size_map_shift (offset : Nat) (code : List Instruction) :
    size (code.map (shift offset)) = size code := by
  induction code with
  | nil => rfl
  | cons instruction rest ih => simp only [List.map_cons, size_cons, length_shift, ih]

theorem shift_of_ne {instruction : Instruction} (hjump : instruction.opcode ≠ .jump)
    (hpass : instruction.opcode ≠ .jumpNotTruthy) (offset : Nat) :
    instruction.shift offset = instruction := by
  obtain ⟨opcode, operands⟩ := instruction
  cases opcode
  case jump => exact absurd rfl hjump
  case jumpNotTruthy => exact absurd rfl hpass
  all_goals rfl

@[simp] theorem shift_zero (instruction : Instruction) : instruction.shift 0 = instruction := by
  have hoperands : ∀ operands : List Nat, operands.map (0 + ·) = operands := by simp
  by_cases hjump : instruction.opcode = .jump
  · obtain ⟨_, operands⟩ := instruction
    cases hjump
    simp only [shift, hoperands]
  by_cases hpass : instruction.opcode = .jumpNotTruthy
  · obtain ⟨_, operands⟩ := instruction
    cases hpass
    simp only [shift, hoperands]
  exact shift_of_ne hjump hpass 0

theorem map_shift_zero (code : List Instruction) : code.map (shift 0) = code := by
  have hsame : shift 0 = id := funext shift_zero
  rw [hsame, List.map_id]

end Instruction

/-! ### Names -/

/-- Names stand for the same. -/
structure Scope.Alike (first second : Scope) : Prop where
  find (name : String) : first.find? name = second.find? name
  definitions : first.definitions = second.definitions
  captured : first.captured = second.captured

namespace Scope.Alike

variable {first second : Scope}

theorem refl (scope : Scope) : scope.Alike scope :=
  ⟨fun _ ↦ rfl, rfl, rfl⟩

theorem find_bind (h : first.Alike second) (symbol : Symbol) (name : String) :
    (first.bind symbol).find? name = (second.bind symbol).find? name := by
  rw [Scope.find?_bind, Scope.find?_bind, h.find]

theorem define (h : first.Alike second) (name : String) (place : Symbol.Place) :
    (first.define name place).1 = (second.define name place).1 ∧
      (first.define name place).2.Alike (second.define name place).2 := by
  have hbind := h.find_bind ⟨name, place, first.definitions⟩
  obtain ⟨bindings, definitions, captured⟩ := first
  obtain ⟨others, _, _⟩ := second
  obtain ⟨_, rfl, rfl⟩ := h
  exact ⟨rfl, hbind, rfl, rfl⟩

theorem capture (h : first.Alike second) (outside : Symbol) :
    (first.capture outside).1 = (second.capture outside).1 ∧
      (first.capture outside).2.Alike (second.capture outside).2 := by
  have hbind := h.find_bind ⟨outside.name, .free, first.captured.length⟩
  obtain ⟨bindings, definitions, captured⟩ := first
  obtain ⟨others, _, _⟩ := second
  obtain ⟨_, rfl, rfl⟩ := h
  exact ⟨rfl, hbind, rfl, rfl⟩

end Scope.Alike

structure Scopes.Alike (first second : Scopes) : Prop where
  current : first.current.Alike second.current
  outer : List.Forall₂ Scope.Alike first.outer second.outer

namespace Scopes.Alike

variable {first second : Scopes}

theorem define (h : first.Alike second) (name : String) :
    (first.define name).1 = (second.define name).1 ∧
      (first.define name).2.Alike (second.define name).2 := by
  have hempty : first.outer.isEmpty = second.outer.isEmpty := by
    rw [Bool.eq_iff_iff, List.isEmpty_iff_length_eq_zero, List.isEmpty_iff_length_eq_zero,
      h.outer.length_eq]
  obtain ⟨hsymbol, hcurrent⟩ :=
    h.current.define name (if first.outer.isEmpty then .global else .localSlot)
  simp only [Scopes.define, ← hempty]
  exact ⟨hsymbol, hcurrent, h.outer⟩

theorem enclose (h : first.Alike second) : first.enclose.Alike second.enclose :=
  ⟨.refl _, .cons h.current h.outer⟩

theorem defineFunction (h : first.Alike second) (name : String) :
    (first.defineFunction name).2.Alike (second.defineFunction name).2 :=
  ⟨⟨h.current.find_bind _, h.current.definitions, h.current.captured⟩, h.outer⟩

theorem enter (h : first.Alike second) (name : Option String) (parameters : List String) :
    (Assembly.enter name parameters first).Alike (Assembly.enter name parameters second) := by
  have hparameters : ∀ (names : List String) (first second : Scopes), first.Alike second →
      Scopes.Alike (names.foldl (fun scopes name ↦ (scopes.define name).2) first)
        (names.foldl (fun scopes name ↦ (scopes.define name).2) second) := by
    intro names
    induction names with
    | nil => exact fun _ _ h ↦ h
    | cons name rest ih => exact fun _ _ h ↦ ih _ _ (h.define name).2
  refine hparameters parameters _ _ ?_
  cases name with
  | none => exact h.enclose
  | some name => exact h.enclose.defineFunction name

theorem leave (h : first.Alike second) :
    (first.leave?.getD {}).Alike (second.leave?.getD {}) := by
  obtain ⟨current, outer⟩ := first
  obtain ⟨other, others⟩ := second
  cases h.outer with
  | nil => exact ⟨.refl _, .nil⟩
  | cons hone hrest => exact ⟨hone, hrest⟩

/-- A name that is found in the one is found in the other, as the same symbol. -/
theorem resolveFrom {name : String} {current other : Scope} {outer others : List Scope}
    {symbol : Symbol} {after : Scopes} (hcurrent : current.Alike other)
    (houter : List.Forall₂ Scope.Alike outer others)
    (h : Scopes.resolveFrom name current outer = some (symbol, after)) :
    ∃ later, Scopes.resolveFrom name other others = some (symbol, later) ∧ after.Alike later := by
  induction houter generalizing current other symbol after with
  | nil =>
    rw [Scopes.resolveFrom] at h ⊢
    rw [← hcurrent.find name]
    split at h
    · cases h
      exact ⟨_, rfl, hcurrent, .nil⟩
    · cases h
  | @cons around aroundOther rest restOther hone hrest ih =>
    rw [Scopes.resolveFrom] at h ⊢
    rw [← hcurrent.find name]
    split at h
    · cases h
      exact ⟨_, rfl, hcurrent, .cons hone hrest⟩
    · split at h
      · cases h
      · next found scopes hfound =>
        obtain ⟨later, hlater, halike⟩ := ih hone hfound
        rw [hlater]
        dsimp only
        split at h
        · next hshared =>
          cases h
          rw [if_pos hshared]
          exact ⟨_, rfl, hcurrent, .cons halike.current halike.outer⟩
        · next hshared =>
          cases h
          rw [if_neg hshared]
          obtain ⟨hsymbol, hcaptured⟩ := hcurrent.capture found
          rw [← hsymbol]
          exact ⟨_, rfl, hcaptured, .cons halike.current halike.outer⟩

end Scopes.Alike

structure Draft.Alike (first second : Draft) : Prop where
  constants : first.constants = second.constants
  scopes : first.scopes.Alike second.scopes

/-! ### Assemblies -/

namespace Assembly

variable {draft other : Draft}

/-- The second assembly comes to the code of the first, with jumps that lead so many bytes less
far. -/
abbrev Shifts (offset : Nat) (first second : Assembly (List Instruction)) (draft other : Draft) :
    Prop :=
  Follows first second draft other fun code after moved later ↦
    after.Alike later ∧ code = moved.map (Instruction.shift offset)

theorem shifts_instruction (offset : Nat) {opcode : Opcode} {operands : List Nat}
    (h : draft.Alike other) (hjump : opcode ≠ .jump) (hpass : opcode ≠ .jumpNotTruthy) :
    Shifts offset (instruction opcode operands) (instruction opcode operands) draft other := by
  intro code after hcode
  unfold instruction at hcode ⊢
  split at hcode
  · cases hcode
  · cases hcode
    refine ⟨_, _, rfl, h, ?_⟩
    rw [List.map_singleton, Instruction.shift_of_ne hjump hpass]

theorem shifts_jump (offset : Nat) {opcode : Opcode} {target : Nat} (h : draft.Alike other)
    (hopcode : opcode = .jump ∨ opcode = .jumpNotTruthy) :
    Shifts offset (instruction opcode [offset + target]) (instruction opcode [target]) draft
      other := by
  intro code after hcode
  have hwidths : opcode.widths = [.two] := by
    rcases hopcode with rfl | rfl <;> rfl
  have hshift : Instruction.shift offset ⟨opcode, [target]⟩ = ⟨opcode, [offset + target]⟩ := by
    rcases hopcode with rfl | rfl <;> rfl
  unfold instruction at hcode ⊢
  simp only [hwidths, Instruction.oversized?] at hcode ⊢
  by_cases hroom : offset + target < Opcode.Width.two.bound
  · rw [if_pos hroom] at hcode
    rw [if_pos (Nat.lt_of_le_of_lt (Nat.le_add_left target offset) hroom)]
    cases hcode
    exact ⟨_, _, rfl, h, by rw [List.map_singleton, hshift]⟩
  · rw [if_neg hroom] at hcode
    cases hcode

/-- An instruction that is no jump, behind the code so far. -/
theorem shifts_instruction_after (offset : Nat) {opcode : Opcode} {operands : List Nat}
    {code : List Instruction} (h : draft.Alike other) (hjump : opcode ≠ .jump)
    (hpass : opcode ≠ .jumpNotTruthy) :
    Shifts offset (do return code.map (Instruction.shift offset) ++ (← instruction opcode operands))
      (do return code ++ (← instruction opcode operands)) draft other := by
  refine (shifts_instruction offset h hjump hpass).bind ?_
  rintro _ _ moved _ ⟨halike, rfl⟩
  exact .pure ⟨halike, by rw [List.map_append]⟩

theorem follows_addConstant (constant : Label → Value) (h : draft.Alike other) :
    Follows (addConstant constant) (addConstant constant) draft other fun entry after same later ↦
      after.Alike later ∧ entry = same := by
  rintro _ _ ⟨⟩
  have hsize : draft.constants.size = other.constants.size := by rw [h.constants]
  refine ⟨_, _, rfl, ⟨?_, h.scopes⟩, hsize⟩
  rw [h.constants]

theorem follows_define (name : String) (h : draft.Alike other) :
    Follows (define name) (define name) draft other fun symbol after same later ↦
      after.Alike later ∧ symbol = same := by
  rintro _ _ ⟨⟩
  obtain ⟨hsymbol, hscopes⟩ := h.scopes.define name
  exact ⟨_, _, rfl, ⟨h.constants, hscopes⟩, hsymbol⟩

theorem follows_resolve (name : String) (h : draft.Alike other) :
    Follows (resolve name) (resolve name) draft other fun symbol after same later ↦
      after.Alike later ∧ symbol = same := by
  intro symbol after hresolve
  unfold resolve at hresolve ⊢
  split at hresolve
  · next hfound =>
    cases hresolve
    obtain ⟨later, hlater, halike⟩ :=
      Scopes.Alike.resolveFrom h.scopes.current h.scopes.outer hfound
    have hother : other.scopes.resolve name = some (symbol, later) := hlater
    rw [hother]
    exact ⟨_, _, rfl, ⟨h.constants, halike⟩, rfl⟩
  · cases hresolve

theorem shifts_load (offset : Nat) (symbol : Symbol) (h : draft.Alike other) :
    Shifts offset (load symbol) (load symbol) draft other := by
  unfold load
  split <;> exact shifts_instruction offset h (by decide) (by decide)

theorem shifts_loadAll (offset : Nat) (symbols : List Symbol) (h : draft.Alike other) :
    Shifts offset (loadAll symbols) (loadAll symbols) draft other := by
  induction symbols generalizing draft other with
  | nil => exact .pure ⟨h, rfl⟩
  | cons symbol rest ih =>
    refine (shifts_load offset symbol h).bind ?_
    rintro _ _ first _ ⟨h, rfl⟩
    refine (ih h).bind ?_
    rintro _ _ others _ ⟨h, rfl⟩
    exact .pure ⟨h, by rw [List.map_append]⟩

theorem shifts_endBody (offset : Nat) (returns : Bool) (code : List Instruction)
    (h : draft.Alike other) :
    Shifts offset (endBody returns (code.map (Instruction.shift offset))) (endBody returns code)
      draft other := by
  unfold endBody
  cases returns
  · exact shifts_instruction_after offset h (by decide) (by decide)
  · exact .pure ⟨h, rfl⟩

/-- The code of a function begins at its own offset, wherever the function is. -/
theorem follows_inFunction {name : Option String} {parameters : List String}
    {body : Assembly (List Instruction)}
    (hbody : ∀ draft other, draft.Alike other → Shifts 0 body body draft other)
    (h : draft.Alike other) :
    Follows (inFunction name parameters body) (inFunction name parameters body) draft other
      fun (code, scope) after (same, around) later ↦ after.Alike later ∧ code = same ∧
        scope.Alike around := by
  rintro ⟨code, scope⟩ after hfirst
  have hinner : Draft.Alike { draft with scopes := enter name parameters draft.scopes }
      { other with scopes := enter name parameters other.scopes } :=
    ⟨h.constants, h.scopes.enter name parameters⟩
  have hshifts := hbody _ _ hinner
  unfold inFunction at hfirst ⊢
  split at hfirst
  · next code inner hcode =>
    cases hfirst
    obtain ⟨moved, later, hmoved, halike, rfl⟩ := hshifts code inner hcode
    rw [hmoved]
    exact ⟨_, _, rfl, ⟨halike.constants, halike.scopes.leave⟩, Instruction.map_shift_zero moved,
      halike.scopes.current⟩
  · cases hfirst

end Assembly

/-! ### Programs -/

open Assembly

theorem Part.no_jump_of_closing {opcode : Opcode} (h : opcode ∈ closings) :
    opcode ≠ .jump ∧ opcode ≠ .jumpNotTruthy := by
  constructor <;> rintro rfl <;> exact absurd h (by decide)

namespace Part

/-- The part at a later offset is the same code with its jumps shifted. -/
abbrev ShiftsJumps (offset : Nat) (part : Part) : Prop :=
  ∀ start draft other, Draft.Alike draft other →
    Shifts offset (part.assemble (offset + start)) (part.assemble start) draft other

variable {offset : Nat}

theorem shift_inOrder {parts : List Part} (hparts : ∀ part ∈ parts, part.ShiftsJumps offset)
    (start : Nat) {draft other : Draft} (h : draft.Alike other) :
    Shifts offset (assembleInOrder parts (offset + start)) (assembleInOrder parts start) draft
      other := by
  induction parts generalizing start draft other with
  | nil => exact .pure ⟨h, rfl⟩
  | cons part rest ih =>
    rw [List.forall_mem_cons] at hparts
    refine (hparts.1 start _ _ h).bind ?_
    rintro _ _ first _ ⟨h, rfl⟩
    rw [Instruction.size_map_shift, Nat.add_assoc]
    refine (ih hparts.2 _ h).bind ?_
    rintro _ _ others _ ⟨h, rfl⟩
    exact .pure ⟨h, by rw [List.map_append]⟩

theorem shift_option {part? : Option Part} (hpart : ∀ part ∈ part?, part.ShiftsJumps offset)
    (start : Nat) {draft other : Draft} (h : draft.Alike other) :
    Shifts offset (assembleOption part? (offset + start)) (assembleOption part? start) draft
      other := by
  cases part? with
  | some part => exact hpart part rfl start _ _ h
  | none =>
    change Shifts offset (instruction .null []) (instruction .null []) draft other
    exact shifts_instruction offset h (by decide) (by decide)

/-- Both parts of a branch with the jumps around them. -/
theorem shift_branch {condition consequence : Part} {alternative : Option Part}
    (hcondition : condition.ShiftsJumps offset) (hconsequence : consequence.ShiftsJumps offset)
    (halternative : ∀ part ∈ alternative, part.ShiftsJumps offset) (start : Nat)
    {draft other : Draft} (h : draft.Alike other) :
    let branch := (Shape.branch condition consequence alternative).assemble
    Shifts offset (branch (offset + start)) (branch start) draft other := by
  refine (hcondition start _ _ h).bind ?_
  rintro _ _ tested _ ⟨h, rfl⟩
  simp only [Instruction.size_map_shift, Nat.add_assoc offset]
  refine (hconsequence _ _ _ h).bind ?_
  rintro _ _ taken _ ⟨h, rfl⟩
  simp only [Instruction.size_map_shift]
  refine (shifts_jump offset h (.inr rfl)).bind ?_
  rintro _ _ pass _ ⟨h, rfl⟩
  refine (shift_option halternative _ h).bind ?_
  rintro _ _ passed _ ⟨h, rfl⟩
  simp only [Instruction.size_map_shift]
  refine (shifts_jump offset h (.inl rfl)).bind ?_
  rintro _ _ finish _ ⟨h, rfl⟩
  exact .pure ⟨h, by simp only [List.map_append]⟩

theorem shift_function (parameters : List String) {body : List Stmt} (name : Option String)
    (hbody : (stmts body .giveBack).ShiftsJumps 0) (start : Nat) {draft other : Draft}
    (h : draft.Alike other) :
    let function := (Shape.function parameters body name).assemble
    Shifts offset (function (offset + start)) (function start) draft other := by
  have hinner : ∀ draft other, Draft.Alike draft other → Shifts 0
      (do endBody (Stmt.returns body) (← Stmt.assembleAll body .giveBack 0))
      (do endBody (Stmt.returns body) (← Stmt.assembleAll body .giveBack 0)) draft other := by
    intro draft other h
    refine (hbody 0 draft other h).bind ?_
    rintro _ _ code _ ⟨h, rfl⟩
    exact shifts_endBody 0 _ code h
  refine (follows_inFunction hinner h).bind ?_
  rintro ⟨code, scope⟩ _ ⟨_, around⟩ _ ⟨h, rfl, hscope⟩
  simp only [hscope.captured, hscope.definitions]
  refine (shifts_loadAll offset around.captured h).bind ?_
  rintro _ _ loads _ ⟨h, rfl⟩
  refine (follows_addConstant _ h).bind ?_
  rintro entry _ _ _ ⟨h, rfl⟩
  exact shifts_instruction_after offset h (by decide) (by decide)

theorem shift (part : Part) (offset : Nat) : part.ShiftsJumps offset := by
  induction part using Part.induction generalizing offset with
  | step part ih =>
    intro start draft other h
    rw [part.assemble_eq, part.assemble_eq]
    have hregular := part.regular
    generalize part.shape = shape at ih hregular
    cases hregular with
    | integer value =>
      refine (follows_addConstant (fun _ ↦ .integer value) h).bind ?_
      rintro entry _ _ _ ⟨h, rfl⟩
      exact shifts_instruction offset h (by decide) (by decide)
    | string content =>
      refine (follows_addConstant (.string · content) h).bind ?_
      rintro entry _ _ _ ⟨h, rfl⟩
      exact shifts_instruction offset h (by decide) (by decide)
    | ident name =>
      refine (follows_resolve name h).bind ?_
      rintro symbol _ _ _ ⟨h, rfl⟩
      exact shifts_load offset symbol h
    | sequence parts =>
      refine (shift_inOrder (fun piece hmem ↦ ih piece hmem offset) start h).bind ?_
      rintro _ _ code _ ⟨h, rfl⟩
      simp only [Closing.assemble, pure_bind, List.append_nil]
      exact .pure ⟨h, rfl⟩
    | failure parts error =>
      refine (shift_inOrder (fun piece hmem ↦ ih piece hmem offset) start h).bind ?_
      rintro _ _ code _ ⟨h, rfl⟩
      exact .throw error
    | operation parts hopcode hlength =>
      refine (shift_inOrder (fun piece hmem ↦ ih piece hmem offset) start h).bind ?_
      rintro _ _ code _ ⟨h, rfl⟩
      obtain ⟨hjump, hpass⟩ := no_jump_of_closing hopcode
      exact shifts_instruction_after offset h hjump hpass
    | branch condition consequence alternative =>
      simp only [Shape.pieces, List.forall_mem_cons, Option.mem_toList] at ih
      exact shift_branch (ih.1 offset) (ih.2.1 offset)
        (fun piece hpiece ↦ ih.2.2 piece hpiece offset) start h
    | function parameters body name =>
      exact shift_function parameters name (ih _ List.mem_cons_self 0) start h
    | binding name value =>
      refine (follows_define name h).bind ?_
      rintro symbol _ _ _ ⟨h, rfl⟩
      refine (ih value List.mem_cons_self offset start _ _ h).bind ?_
      rintro _ _ code _ ⟨h, rfl⟩
      dsimp only
      split <;> exact shifts_instruction_after offset h (by decide) (by decide)

end Part

theorem Stmt.assembleAll_shift (stmts : List Stmt) (ending : Ending) (offset start : Nat)
    (draft other : Draft) (h : draft.Alike other) :
    Shifts offset (Stmt.assembleAll stmts ending (offset + start))
      (Stmt.assembleAll stmts ending start) draft other :=
  (Part.stmts stmts ending).shift offset start draft other h

end StackScript
