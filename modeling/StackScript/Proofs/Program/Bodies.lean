import StackScript.Proofs.Bytecode.Editing
import StackScript.Proofs.Bytecode.WellFormed

/-!
Where the functions among the constants come from. Each one is the code of a body that occurs in the
text, ended with a return if it has none (`Part.draws`), so that what can be said of all
bodies holds of all functions. And where no value is discarded in the text, as each expression
statement is the last one of its block, nothing in the code discards one either.
-/

set_option autoImplicit false
set_option relaxedAutoImplicit false

namespace StackScript

open Instruction (size encodeAll)

/-! ### Bodies of functions -/

mutual

/-- The bodies of the functions in an expression, also of those inside of others. -/
def Expr.bodies : Expr → List (List Stmt)
  | .ident _ | .int _ | .str _ | .bool _ => []
  | .unary _ operand => operand.bodies
  | .binary _ left right => left.bodies ++ right.bodies
  | .branch condition consequence (some alternative) =>
    condition.bodies ++ Stmt.bodiesAll consequence ++ Stmt.bodiesAll alternative
  | .branch condition consequence none => condition.bodies ++ Stmt.bodiesAll consequence
  | .function _ body _ => body :: Stmt.bodiesAll body
  | .call callee arguments => callee.bodies ++ Expr.bodiesAll arguments
  | .array elements => Expr.bodiesAll elements
  | .hash pairs => Expr.bodiesPairs pairs
  | .index collection position => collection.bodies ++ position.bodies

def Stmt.bodies : Stmt → List (List Stmt)
  | .bind _ value | .ret value => value.bodies
  | .eval expr => expr.bodies

def Stmt.bodiesAll : List Stmt → List (List Stmt)
  | [] => []
  | stmt :: rest => stmt.bodies ++ Stmt.bodiesAll rest

def Expr.bodiesAll : List Expr → List (List Stmt)
  | [] => []
  | expr :: rest => expr.bodies ++ Expr.bodiesAll rest

def Expr.bodiesPairs : List (Expr × Expr) → List (List Stmt)
  | [] => []
  | (key, value) :: rest => key.bodies ++ value.bodies ++ Expr.bodiesPairs rest

end

mutual

/-- No value is discarded: each expression statement in a block of the expression is the last one of
it. Functions in the expression are left out. -/
def Expr.sparing : Expr → Bool
  | .ident _ | .int _ | .str _ | .bool _ | .function _ _ _ => true
  | .unary _ operand => operand.sparing
  | .binary _ left right => left.sparing && right.sparing
  | .branch condition consequence (some alternative) =>
    condition.sparing && Stmt.sparingBlock consequence && Stmt.sparingBlock alternative
  | .branch condition consequence none => condition.sparing && Stmt.sparingBlock consequence
  | .call callee arguments => callee.sparing && Expr.sparingAll arguments
  | .array elements => Expr.sparingAll elements
  | .hash pairs => Expr.sparingPairs pairs
  | .index collection position => collection.sparing && position.sparing

def Stmt.sparing : Stmt → Bool
  | .bind _ value | .ret value => value.sparing
  | .eval expr => expr.sparing

/-- The value of the last statement is not counted as discarded. -/
def Stmt.sparingBlock : List Stmt → Bool
  | [] => true
  | stmt :: rest => stmt.sparing && (rest.isEmpty || !Stmt.yields [stmt]) && Stmt.sparingBlock rest

def Expr.sparingAll : List Expr → Bool
  | [] => true
  | expr :: rest => expr.sparing && Expr.sparingAll rest

def Expr.sparingPairs : List (Expr × Expr) → Bool
  | [] => true
  | (key, value) :: rest => key.sparing && value.sparing && Expr.sparingPairs rest

end

/-- The routine is the code of the body, assembled inside of a function, with a return at its end.
-/
def Routine.CompiledFrom (routine : Routine) (body : List Stmt) : Prop :=
  ∃ draft inner last, Stmt.assembleAll body .giveBack 0 draft = .ok inner last ∧
    routine.code.toList = encodeAll (inner ++ if Stmt.returns body then [] else [⟨.ret, []⟩])

/-- Each function among the constants is compiled from an allowed body. -/
def Drawn (allowed : List Stmt → Prop) (constants : Array Value) : Prop :=
  ∀ (entry : Nat) (label : Label) (routine : Routine),
    constants[entry]? = some (.routine label routine) →
      ∃ body, allowed body ∧ routine.CompiledFrom body

variable {allowed : List Stmt → Prop}

theorem drawn_empty : Drawn allowed #[] := by
  intro entry label routine hentry
  simp at hentry

theorem Drawn.push {constants : Array Value} {constant : Value} (h : Drawn allowed constants)
    (hconstant : ∀ label routine, constant = .routine label routine →
      ∃ body, allowed body ∧ routine.CompiledFrom body) :
    Drawn allowed (constants.push constant) := by
  intro entry label routine hentry
  rw [Array.getElem?_push] at hentry
  split at hentry
  · exact hconstant label routine (Option.some.inj hentry)
  · exact h entry label routine hentry

/-! ### Assemblies -/

/-- Nothing in the code discards a value. -/
def Instruction.Popless (code : List Instruction) : Prop :=
  ∀ instruction ∈ code, instruction.opcode ≠ .pop

open Instruction (Popless)

theorem Instruction.popless_append {first second : List Instruction} :
    Popless (first ++ second) ↔ Popless first ∧ Popless second :=
  List.forall_mem_append

theorem Instruction.popless_single {instruction : Instruction} :
    Popless [instruction] ↔ instruction.opcode ≠ .pop :=
  List.forall_mem_singleton

namespace Assembly

variable {α β : Type}

/-- What the assembly yields satisfies the property, and if the functions among the constants are
compiled from allowed bodies, they still are, also after an error. -/
def Draws (allowed : List Stmt → Prop) (assembly : Assembly α) (draft : Draft)
    (property : α → Prop) : Prop :=
  Ends assembly draft
    (fun yielded after ↦
      (Drawn allowed draft.constants → Drawn allowed after.constants) ∧ property yielded)
    fun _ after ↦ Drawn allowed draft.constants → Drawn allowed after.constants

variable {draft : Draft} {property : α → Prop} {further : β → Prop}

theorem Draws.bind {assembly : Assembly α} {next : α → Assembly β}
    (h : Draws allowed assembly draft property)
    (hnext : ∀ yielded after, property yielded → Draws allowed (next yielded) after further) :
    Draws allowed (assembly >>= next) draft further := by
  unfold Draws at h ⊢
  refine Ends.bind (h.mono (fun _ _ hdone ↦ hdone) fun _ _ hfailed ↦ hfailed) ?_
  rintro yielded middle ⟨hkept, hproperty⟩
  refine (hnext yielded middle hproperty).mono ?_ fun _ _ hfailed ↦ hfailed ∘ hkept
  rintro _ _ ⟨hmore, hfurther⟩
  exact ⟨hmore ∘ hkept, hfurther⟩

theorem Draws.pure {yielded : α} (h : property yielded) :
    Draws allowed (Pure.pure yielded) draft property :=
  Ends.pure ⟨id, h⟩

theorem Draws.throw (error : CompileError) :
    Draws allowed (MonadExcept.throw error) draft property :=
  Ends.throw id

theorem Draws.mono {assembly : Assembly α} {weaker : α → Prop}
    (h : Draws allowed assembly draft property)
    (hweaker : ∀ yielded, property yielded → weaker yielded) :
    Draws allowed assembly draft weaker :=
  Ends.mono h (fun yielded _ hdone ↦ ⟨hdone.1, hweaker yielded hdone.2⟩) fun _ _ hfailed ↦ hfailed

theorem draws_instruction (opcode : Opcode) (operands : List Nat) :
    Draws allowed (instruction opcode operands) draft fun code ↦ code = [⟨opcode, operands⟩] := by
  unfold Draws Ends instruction
  cases Instruction.oversized? opcode.widths operands with
  | some operand => exact id
  | none => exact ⟨id, rfl⟩

/-- An instruction that discards nothing, behind the code so far. -/
theorem draws_instruction_after {spared : Prop} {code : List Instruction}
    (hcode : spared → Popless code) {opcode : Opcode} (hopcode : opcode ≠ .pop)
    (operands : List Nat) :
    Draws allowed (do return code ++ (← instruction opcode operands)) draft
      fun code ↦ spared → Popless code := by
  refine (draws_instruction opcode operands).bind ?_
  rintro _ after rfl
  exact .pure fun hspared ↦ Instruction.popless_append.mpr
    ⟨hcode hspared, Instruction.popless_single.mpr hopcode⟩

theorem draws_only_instruction {spared : Prop} {opcode : Opcode} (hopcode : opcode ≠ .pop)
    (operands : List Nat) :
    Draws allowed (instruction opcode operands) draft fun code ↦ spared → Popless code := by
  refine (draws_instruction opcode operands).mono ?_
  rintro _ rfl _
  exact Instruction.popless_single.mpr hopcode

theorem draws_addConstant (constant : Label → Value)
    (h : ∀ label other routine, constant label = .routine other routine →
      ∃ body, allowed body ∧ routine.CompiledFrom body) :
    Draws allowed (addConstant constant) draft fun _ ↦ True :=
  ⟨fun hdrawn ↦ hdrawn.push fun _ _ heq ↦ h _ _ _ heq, trivial⟩

theorem draws_define (name : String) : Draws allowed (define name) draft fun _ ↦ True :=
  ⟨id, trivial⟩

theorem draws_resolve (name : String) : Draws allowed (resolve name) draft fun _ ↦ True := by
  unfold Draws Ends resolve
  cases draft.scopes.resolve name with
  | none => exact id
  | some found => exact ⟨id, trivial⟩

theorem draws_load (spared : Prop) (symbol : Symbol) :
    Draws allowed (load symbol) draft fun code ↦ spared → Popless code := by
  unfold load
  cases symbol.place <;> exact draws_only_instruction (by decide) _

theorem draws_loadAll (spared : Prop) (symbols : List Symbol) :
    Draws allowed (loadAll symbols) draft fun code ↦ spared → Popless code := by
  induction symbols generalizing draft with
  | nil => exact .pure fun _ ↦ by simp [Popless]
  | cons symbol rest ih =>
    refine (draws_load spared symbol).bind fun first _ hfirst ↦
      ih.bind fun others _ hothers ↦ ?_
    exact .pure fun hspared ↦ Instruction.popless_append.mpr ⟨hfirst hspared, hothers hspared⟩

/-- What is assembled inside a function is the code of its body. -/
theorem draws_inFunction {name : Option String} {parameters : List String} {body : List Stmt}
    {property : List Instruction → Prop}
    (hbody : ∀ inner, Draws allowed (Stmt.assembleAll body .giveBack 0) inner property) :
    Draws allowed (inFunction name parameters do
        endBody (Stmt.returns body) (← Stmt.assembleAll body .giveBack 0)) draft
      fun (code, scope) ↦ Routine.CompiledFrom
        ⟨(encodeAll code).toArray, scope.definitions, parameters.length⟩ body := by
  have hinner := hbody { draft with scopes := enter name parameters draft.scopes }
  unfold Draws Ends at hinner ⊢
  unfold inFunction
  cases hassemble : Stmt.assembleAll body .giveBack 0
      { draft with scopes := enter name parameters draft.scopes } with
  | error error after =>
    rw [hassemble] at hinner
    rw [bind_of_error hassemble]
    exact hinner
  | ok code after =>
    rw [hassemble] at hinner
    rw [bind_of_ok hassemble, endBody_eq]
    exact ⟨hinner.1, _, code, after, hassemble, by simp⟩

end Assembly

open Assembly

namespace Part

/-- The bodies of the functions in a part. -/
def bodies : Part → List (List Stmt)
  | expr tree => tree.bodies
  | stmt tree _ => tree.bodies
  | stmts trees _ => Stmt.bodiesAll trees
  | exprs trees => Expr.bodiesAll trees
  | pairs trees => Expr.bodiesPairs trees

/-- No value is discarded in the part, that of its last statement included. -/
def Sparing : Part → Prop
  | expr tree => tree.sparing
  | stmt tree ending => tree.sparing ∧ (ending ≠ .discard ∨ ¬Stmt.yields [tree])
  | stmts trees ending => Stmt.sparingBlock trees ∧ (ending ≠ .discard ∨ ¬Stmt.yields trees)
  | exprs trees => Expr.sparingAll trees
  | pairs trees => Expr.sparingPairs trees

theorem bodies_pieces (part : Part) :
    ∀ piece ∈ part.shape.pieces, ∀ body ∈ piece.bodies, body ∈ part.bodies := by
  cases part with
  | expr tree =>
    cases tree with
    | branch condition consequence alternative =>
      cases alternative <;> simp +contextual [shape, Shape.pieces, bodies, Expr.bodies]
    | binary op left right =>
      rw [shape]
      split <;> simp +contextual [Shape.pieces, bodies, Expr.bodies]
    | _ => simp +contextual [shape, Shape.pieces, bodies, Expr.bodies]
  | stmt tree ending => cases tree <;> simp +contextual [shape, Shape.pieces, bodies, Stmt.bodies]
  | stmts trees ending =>
    cases trees <;> simp +contextual [shape, Shape.pieces, bodies, Stmt.bodiesAll]
  | exprs trees => cases trees <;> simp +contextual [shape, Shape.pieces, bodies, Expr.bodiesAll]
  | pairs trees => cases trees <;> simp +contextual [shape, Shape.pieces, bodies, Expr.bodiesPairs]

variable {part : Part}

theorem Sparing.pieces (h : part.Sparing)
    (hfunction : ∀ parameters body name, part ≠ expr (.function parameters body name)) :
    ∀ piece ∈ part.shape.pieces, piece.Sparing := by
  cases part with
  | expr tree =>
    cases tree with
    | function parameters body name => exact absurd rfl (hfunction parameters body name)
    | branch condition consequence alternative =>
      cases alternative <;>
        simp_all [shape, Shape.pieces, Sparing, Expr.sparing]
    | binary op left right =>
      rw [shape]
      split <;> simp_all [Shape.pieces, Sparing, Expr.sparing]
    | _ => simp_all [shape, Shape.pieces, Sparing, Expr.sparing]
  | stmt tree ending =>
    cases tree <;> simp_all [shape, Shape.pieces, Sparing, Stmt.sparing]
  | stmts trees ending =>
    cases trees with
    | nil => simp [shape, Shape.pieces]
    | cons first rest =>
      obtain ⟨hall, hending⟩ := h
      rw [Stmt.sparingBlock, Bool.and_eq_true, Bool.and_eq_true] at hall
      obtain ⟨⟨hfirst, hyields⟩, hrest⟩ := hall
      cases rest with
      | nil => simp_all [shape, Shape.pieces, Sparing, Stmt.yields]
      | cons other others =>
        simp_all [shape, Shape.pieces, Sparing, Stmt.yields]
  | exprs trees => cases trees <;> simp_all [shape, Shape.pieces, Sparing, Expr.sparingAll]
  | pairs trees => cases trees <;> simp_all [shape, Shape.pieces, Sparing, Expr.sparingPairs]

/-- The operation behind the pieces discards nothing. -/
theorem Sparing.closing (h : part.Sparing) {parts : List Part} {opcode : Opcode}
    {operands : List Nat} (hshape : part.shape = .sequence parts (.operation opcode operands)) :
    opcode ≠ .pop := by
  obtain ⟨tree, rfl, rfl⟩ | ⟨tree, rfl, rfl⟩ | ⟨tree, ending, rfl, rfl⟩ | ⟨tree, rfl, hpop, _⟩ :=
    operation_of_shape hshape
  · rcases h.2 with hending | hyields
    · exact absurd rfl hending
    · exact absurd rfl hyields
  · decide
  · decide
  · exact hpop

theorem draws_inOrder {parts : List Part} {spared : Prop}
    (h : ∀ part ∈ parts, ∀ start draft, Draws allowed (part.assemble start) draft
      fun code ↦ spared → Popless code) (start : Nat) (draft : Draft) :
    Draws allowed (assembleInOrder parts start) draft fun code ↦ spared → Popless code := by
  induction parts generalizing start draft with
  | nil => exact .pure fun _ ↦ by simp [Popless]
  | cons part rest ih =>
    rw [List.forall_mem_cons] at h
    refine (h.1 start draft).bind fun first _ hfirst ↦ (ih h.2 _ _).bind fun others _ hothers ↦ ?_
    exact .pure fun hspared ↦ Instruction.popless_append.mpr ⟨hfirst hspared, hothers hspared⟩

theorem draws_option {part? : Option Part} {spared : Prop}
    (h : ∀ part ∈ part?, ∀ start draft, Draws allowed (part.assemble start) draft
      fun code ↦ spared → Popless code) (start : Nat) (draft : Draft) :
    Draws allowed (assembleOption part? start) draft fun code ↦ spared → Popless code := by
  cases part? with
  | some part => exact h part rfl start draft
  | none =>
    change Draws allowed (instruction .null []) draft _
    exact draws_only_instruction (by decide) _

/-- Both parts of a branch with the jumps around them. -/
theorem draws_branch {condition consequence : Part} {alternative : Option Part} {spared : Prop}
    (h : ∀ piece ∈ (Shape.branch condition consequence alternative).pieces, ∀ start draft,
      Draws allowed (piece.assemble start) draft fun code ↦ spared → Popless code)
    (start : Nat) (draft : Draft) :
    Draws allowed ((Shape.branch condition consequence alternative).assemble start) draft
      fun code ↦ spared → Popless code := by
  simp only [Shape.pieces, List.forall_mem_cons, Option.mem_toList] at h
  obtain ⟨htest, hfirst, hsecond⟩ := h
  refine (htest start draft).bind fun tested _ htested ↦ (hfirst _ _).bind fun taken _ htaken ↦ ?_
  refine (draws_instruction _ _).bind ?_
  rintro _ _ rfl
  refine (draws_option hsecond _ _).bind fun other _ hother ↦ (draws_instruction _ _).bind ?_
  rintro _ _ rfl
  refine .pure fun hspared ↦ ?_
  simp only [Instruction.popless_append, Instruction.popless_single]
  exact ⟨⟨⟨⟨htested hspared, by decide⟩, htaken hspared⟩, by decide⟩, hother hspared⟩

theorem draws_function (parameters : List String) {body : List Stmt} (name : Option String)
    {spared : Prop} {property : List Instruction → Prop} (hallowed : allowed body)
    (hbody : ∀ inner, Draws allowed (Stmt.assembleAll body .giveBack 0) inner property)
    (start : Nat) (draft : Draft) :
    Draws allowed ((Shape.function parameters body name).assemble start) draft
      fun code ↦ spared → Popless code := by
  refine (draws_inFunction hbody).bind ?_
  rintro ⟨code, scope⟩ _ hcompiled
  refine (draws_loadAll spared scope.captured).bind fun loads _ hloads ↦ ?_
  refine (draws_addConstant _ ?_).bind fun entry _ _ ↦
    draws_instruction_after hloads (by decide) _
  rintro label other routine ⟨⟩
  exact ⟨body, hallowed, hcompiled⟩

/-- The functions of a part are compiled from its bodies, and if it is sparing, its code discards
nothing. -/
theorem draws (part : Part) (h : ∀ body ∈ part.bodies, allowed body) (start : Nat) (draft : Draft) :
    Draws allowed (part.assemble start) draft fun code ↦ part.Sparing → Popless code := by
  induction part using Part.induction generalizing start draft with
  | step part ih =>
    rw [part.assemble_eq]
    have hregular := part.regular
    have hbodies := part.bodies_pieces
    generalize hshape : part.shape = shape at hregular hbodies
    rw [hshape] at ih
    have hpieces : (∀ parameters body name, shape ≠ .function parameters body name) →
        ∀ piece ∈ shape.pieces, ∀ start draft, Draws allowed (piece.assemble start) draft
          fun code ↦ part.Sparing → Popless code := by
      intro hfunction piece hmem start draft
      have hpiece := ih piece hmem (fun body hbody ↦ h body (hbodies piece hmem body hbody)) start
        draft
      refine hpiece.mono fun code hcode hsparing ↦ hcode (hsparing.pieces ?_ piece (hshape ▸ hmem))
      rintro parameters body name rfl
      exact hfunction parameters body name hshape.symm
    cases hregular with
    | integer value =>
      exact (draws_addConstant (fun _ ↦ .integer value) (by rintro _ _ _ ⟨⟩)).bind
        fun entry _ _ ↦ draws_only_instruction (by decide) _
    | string content =>
      exact (draws_addConstant (.string · content) (by rintro _ _ _ ⟨⟩)).bind
        fun entry _ _ ↦ draws_only_instruction (by decide) _
    | ident name => exact (draws_resolve name).bind fun symbol _ _ ↦ draws_load _ symbol
    | sequence parts =>
      refine (draws_inOrder (hpieces (by rintro _ _ _ ⟨⟩)) start draft).bind fun code _ hcode ↦ ?_
      simp only [Closing.assemble, pure_bind, List.append_nil]
      exact .pure hcode
    | failure parts error =>
      exact (draws_inOrder (hpieces (by rintro _ _ _ ⟨⟩)) start draft).bind fun _ _ _ ↦ .throw error
    | @operation parts opcode operands =>
      refine (draws_inOrder (hpieces (by rintro _ _ _ ⟨⟩)) start draft).bind fun code _ hcode ↦ ?_
      refine (draws_instruction opcode operands).bind ?_
      rintro _ after rfl
      exact .pure fun hsparing ↦ Instruction.popless_append.mpr
        ⟨hcode hsparing, Instruction.popless_single.mpr (hsparing.closing hshape)⟩
    | branch condition consequence alternative =>
      exact draws_branch (hpieces (by rintro _ _ _ ⟨⟩)) start draft
    | function parameters body name =>
      obtain rfl := eq_of_shape_function hshape
      have hbody := ih _ List.mem_cons_self fun inner hinner ↦
        h inner (hbodies _ List.mem_cons_self inner hinner)
      exact draws_function parameters name (h body List.mem_cons_self) (hbody 0) start draft
    | binding name value =>
      refine (draws_define name).bind fun symbol _ _ ↦ ?_
      have hvalue := hpieces (by rintro _ _ _ ⟨⟩) value List.mem_cons_self
      refine (hvalue start _).bind fun code _ hcode ↦ ?_
      have hne : (if symbol.place = .global then Opcode.setGlobal else .setLocal) ≠ .pop := by
        split <;> decide
      exact draws_instruction_after hcode hne _

end Part

theorem Stmt.assembleAll_draws (stmts : List Stmt) (h : ∀ body ∈ Stmt.bodiesAll stmts, allowed body)
    (ending : Ending) (start : Nat) (draft : Draft) :
    Draws allowed (Stmt.assembleAll stmts ending start) draft fun code ↦
      Stmt.sparingBlock stmts → ending ≠ .discard ∨ ¬Stmt.yields stmts → Popless code :=
  ((Part.stmts stmts ending).draws h start draft).mono fun _ hcode hspared hending ↦
    hcode ⟨hspared, hending⟩

end StackScript
