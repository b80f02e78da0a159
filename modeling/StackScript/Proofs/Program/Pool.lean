import StackScript.Proofs.Bytecode.Part

/-!
How the constant pool of a program comes about. Constants are added at its end only, one for each
literal, and nothing else touches it. So what holds of a pool and is kept by every such addition
holds of the pool after any code was assembled, also if that failed (`Part.retains`).
-/

set_option autoImplicit false
set_option relaxedAutoImplicit false

namespace StackScript

open Instruction (size encodeAll)

/-- A property of pools that no literal breaks. -/
structure StableUnderLiterals (property : Array Value → Prop) : Prop where
  integer (constants : Array Value) (value : Int64) : property constants →
    property (constants.push (.integer value))
  string (constants : Array Value) (content : String) : property constants →
    property (constants.push (.string (.literal constants.size) content))
  routine (constants : Array Value) (routine : Routine) : property constants →
    property (constants.push (.routine (.literal constants.size) routine))

namespace Assembly

variable {property : Array Value → Prop} {α β : Type}

/-- The property holds of the pool afterwards if it did before, also after an error. -/
def Retains (property : Array Value → Prop) (assembly : Assembly α) : Prop :=
  ∀ draft : Draft, property draft.constants →
    Ends assembly draft (fun _ after ↦ property after.constants)
      fun _ after ↦ property after.constants

theorem Retains.bind {assembly : Assembly α} {next : α → Assembly β}
    (h : Retains property assembly) (hnext : ∀ yielded, Retains property (next yielded)) :
    Retains property (assembly >>= next) :=
  fun draft hdraft ↦ Ends.bind (h draft hdraft) fun yielded after hafter ↦
    hnext yielded after hafter

theorem Retains.pure (yielded : α) : Retains property (Pure.pure yielded) :=
  fun _ ↦ id

theorem Retains.throw (error : CompileError) :
    Retains property (MonadExcept.throw error : Assembly α) :=
  fun _ ↦ id

theorem retains_instruction (opcode : Opcode) (operands : List Nat) :
    Retains property (instruction opcode operands) := by
  intro draft hdraft
  unfold Ends instruction
  cases Instruction.oversized? opcode.widths operands <;> exact hdraft

/-- An instruction behind the code so far. -/
theorem retains_instruction_after (code : List Instruction) (opcode : Opcode)
    (operands : List Nat) :
    Retains property (do return code ++ (← instruction opcode operands)) :=
  (retains_instruction opcode operands).bind fun _ ↦ .pure _

theorem retains_define (name : String) : Retains property (define name) :=
  fun _ ↦ id

theorem retains_resolve (name : String) : Retains property (resolve name) := by
  intro draft hdraft
  unfold Ends resolve
  cases draft.scopes.resolve name <;> exact hdraft

theorem retains_load (symbol : Symbol) : Retains property (load symbol) := by
  unfold load
  cases symbol.place <;> exact retains_instruction _ _

theorem retains_loadAll (symbols : List Symbol) : Retains property (loadAll symbols) := by
  induction symbols with
  | nil => exact .pure []
  | cons symbol rest ih => exact (retains_load symbol).bind fun _ ↦ ih.bind fun _ ↦ .pure _

theorem retains_inFunction (name : Option String) (parameters : List String)
    {body : Assembly (List Instruction)} (h : Retains property body) :
    Retains property (inFunction name parameters body) := by
  intro draft hdraft
  have hbody := h { draft with scopes := enter name parameters draft.scopes } hdraft
  unfold Ends at hbody ⊢
  unfold inFunction
  cases hresult : body { draft with scopes := enter name parameters draft.scopes } with
  | ok code after =>
    rw [hresult] at hbody
    exact hbody
  | error error after =>
    rw [hresult] at hbody
    exact hbody

theorem retains_endBody (returns : Bool) (code : List Instruction) :
    Retains property (endBody returns code) := by
  cases returns with
  | true => exact .pure code
  | false => exact retains_instruction_after code .ret []

end Assembly

/-! ### Programs -/

open Assembly

variable {property : Array Value → Prop}

namespace Part

theorem retains_inOrder {parts : List Part}
    (h : ∀ part ∈ parts, ∀ start, Retains property (part.assemble start)) (start : Nat) :
    Retains property (assembleInOrder parts start) := by
  induction parts generalizing start with
  | nil => exact .pure []
  | cons part rest ih =>
    rw [List.forall_mem_cons] at h
    exact (h.1 start).bind fun _ ↦ (ih h.2 _).bind fun _ ↦ .pure _

theorem retains_option {part? : Option Part}
    (h : ∀ part ∈ part?, ∀ start, Retains property (part.assemble start)) (start : Nat) :
    Retains property (assembleOption part? start) := by
  cases part? with
  | some part => exact h part rfl start
  | none => exact retains_instruction .null []

theorem retains (h : StableUnderLiterals property) (part : Part) (start : Nat) :
    Retains property (part.assemble start) := by
  induction part using Part.induction generalizing start with
  | step part ih =>
    rw [part.assemble_eq]
    have hregular := part.regular
    generalize part.shape = shape at ih hregular
    cases hregular with
    | integer value =>
      have hadd : Retains property (addConstant fun _ ↦ .integer value) :=
        fun draft hdraft ↦ h.integer draft.constants value hdraft
      exact hadd.bind fun _ ↦ retains_instruction _ _
    | string content =>
      have hadd : Retains property (addConstant fun label ↦ .string label content) :=
        fun draft hdraft ↦ h.string draft.constants content hdraft
      exact hadd.bind fun _ ↦ retains_instruction _ _
    | ident name => exact (retains_resolve name).bind fun symbol ↦ retains_load symbol
    | sequence parts => exact (retains_inOrder ih start).bind fun _ ↦ .pure _
    | failure parts error =>
      exact (retains_inOrder ih start).bind fun _ ↦ Retains.bind (.throw error) fun _ ↦ .pure _
    | operation parts =>
      exact (retains_inOrder ih start).bind fun _ ↦ retains_instruction_after _ _ _
    | branch condition consequence alternative =>
      simp only [Shape.pieces, List.forall_mem_cons, Option.mem_toList] at ih
      exact (ih.1 start).bind fun _ ↦ (ih.2.1 _).bind fun _ ↦ (retains_instruction _ _).bind fun _ ↦
        (retains_option ih.2.2 _).bind fun _ ↦ (retains_instruction _ _).bind fun _ ↦ .pure _
    | function parameters body name =>
      have hbody := (ih _ List.mem_cons_self 0).bind fun code ↦
        retains_endBody (Stmt.returns body) code
      refine (retains_inFunction name parameters hbody).bind ?_
      rintro ⟨code, scope⟩
      refine (retains_loadAll scope.captured).bind fun _ ↦ ?_
      have hadd : Retains property (addConstant fun label ↦ .routine label
          ⟨(encodeAll code).toArray, scope.definitions, parameters.length⟩) :=
        fun draft hdraft ↦ h.routine draft.constants _ hdraft
      exact hadd.bind fun _ ↦ retains_instruction_after _ _ _
    | binding name value =>
      exact (retains_define name).bind fun _ ↦ (ih _ List.mem_cons_self _).bind fun _ ↦
        retains_instruction_after _ _ _

end Part

theorem Stmt.assembleAll_retains (h : StableUnderLiterals property) (stmts : List Stmt)
    (ending : Ending) (start : Nat) : Retains property (Stmt.assembleAll stmts ending start) :=
  (Part.stmts stmts ending).retains h start

end StackScript
