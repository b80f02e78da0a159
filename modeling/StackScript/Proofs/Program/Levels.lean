import StackScript.Proofs.Bytecode.Editing
import StackScript.Proofs.Program.Depth

/-!
The code of a program keeps to its levels. Code of expressions leaves at most one more operand than
there were before it, and code of statements none; a block of an `if` that ends with neither an
expression nor a `return` leaves less, so the numbers are strict only if there is no such block
(`Part.levels`). Then there is a numbering for each function that is compiled, which is zero
wherever a statement of its body ends (`Routine.HasBody.numbered`).
-/

set_option autoImplicit false
set_option relaxedAutoImplicit false

namespace StackScript

open Instruction (size encodeAll Leveled Meets)

/-! ### Functions with bodies -/

/-- The routine is compiled from the body, which was assembled from the draft, and blocks inside
yield values. -/
structure Routine.HasBody (routine : Routine) (draft : Draft) (body : List Stmt) : Prop where
  branched : Stmt.branchedAll body
  parameters : routine.parameters ≤ routine.locals
  code : ∃ inner last, Stmt.assembleAll body .giveBack 0 draft = .ok inner last ∧
    routine.code.toList = encodeAll (inner ++ if Stmt.returns body then [] else [⟨.ret, []⟩])

def LeveledPool (constants : Array Value) : Prop :=
  ∀ (entry : Nat) (label : Label) (routine : Routine),
    constants[entry]? = some (.routine label routine) → ∃ draft body, routine.HasBody draft body

theorem LeveledPool.push {constants : Array Value} {constant : Value} (h : LeveledPool constants)
    (hconstant : ∀ label routine, constant = .routine label routine →
      ∃ draft body, routine.HasBody draft body) : LeveledPool (constants.push constant) := by
  intro entry label routine hentry
  rw [Array.getElem?_push] at hentry
  split at hentry
  · exact hconstant label routine (Option.some.inj hentry)
  · exact h entry label routine hentry

/-! ### Assemblies -/

/-- Scopes only grow, and if numbers are strict, then functions are added with their bodies. -/
structure Draft.Extended (strict : Prop) (before after : Draft) : Prop where
  scopes : before.scopes.Grown after.scopes
  pool : strict → LeveledPool before.constants → LeveledPool after.constants

variable {strict : Prop}

theorem Draft.Extended.refl (draft : Draft) : Extended strict draft draft :=
  ⟨.refl _, fun _ ↦ id⟩

theorem Draft.Extended.trans {first second third : Draft} (h : Extended strict first second)
    (hnext : Extended strict second third) : Extended strict first third :=
  ⟨h.scopes.trans hnext.scopes, fun hstrict ↦ hnext.pool hstrict ∘ h.pool hstrict⟩

namespace Assembly

variable {α β : Type}

/-- The assembly extends the draft, and what it yields satisfies the property; if it fails, the
functions that it leaves behind have their bodies too. -/
def Levels (strict : Prop) (assembly : Assembly α) (draft : Draft) (property : α → Prop) : Prop :=
  Ends assembly draft (fun yielded after ↦ draft.Extended strict after ∧ property yielded)
    fun _ after ↦ strict → LeveledPool draft.constants → LeveledPool after.constants

variable {draft : Draft} {property : α → Prop} {further : β → Prop}

theorem Levels.bind {assembly : Assembly α} {next : α → Assembly β}
    (h : Levels strict assembly draft property)
    (hnext : ∀ yielded after, property yielded → Levels strict (next yielded) after further) :
    Levels strict (assembly >>= next) draft further := by
  unfold Levels at h ⊢
  refine Ends.bind (h.mono (fun _ _ hdone ↦ hdone) fun _ _ hfailed ↦ hfailed) ?_
  rintro yielded middle ⟨hextended, hproperty⟩
  refine (hnext yielded middle hproperty).mono ?_ fun _ _ hfailed hstrict hpool ↦
    hfailed hstrict (hextended.pool hstrict hpool)
  rintro _ _ ⟨hmore, hfurther⟩
  exact ⟨hextended.trans hmore, hfurther⟩

theorem Levels.pure {yielded : α} (h : property yielded) :
    Levels strict (Pure.pure yielded) draft property :=
  Ends.pure ⟨.refl draft, h⟩

theorem Levels.throw (error : CompileError) :
    Levels strict (MonadExcept.throw error) draft property :=
  Ends.throw fun _ ↦ id

theorem Levels.mono {assembly : Assembly α} {weaker : α → Prop}
    (h : Levels strict assembly draft property)
    (hweaker : ∀ yielded, property yielded → weaker yielded) :
    Levels strict assembly draft weaker :=
  Ends.mono h (fun yielded _ hdone ↦ ⟨hdone.1, hweaker yielded hdone.2⟩) fun _ _ hfailed ↦ hfailed

theorem Levels.of_ok {assembly : Assembly α} {yielded : α} {after : Draft}
    (h : Levels strict assembly draft property) (hok : assembly draft = .ok yielded after) :
    draft.Extended strict after ∧ property yielded := by
  unfold Levels Ends at h
  rw [hok] at h
  exact h

theorem levels_instruction {opcode : Opcode} {operands : List Nat}
    (hlength : operands.length = opcode.widths.length) :
    Levels strict (instruction opcode operands) draft fun code ↦
      code = [⟨opcode, operands⟩] ∧ Instruction.Fits ⟨opcode, operands⟩ := by
  unfold Levels Ends instruction
  cases h : Instruction.oversized? opcode.widths operands with
  | some operand => exact fun _ ↦ id
  | none => exact ⟨.refl draft, rfl, Instruction.fits_of_oversized?_eq_none hlength h⟩

/-- An instruction that is no jump, behind the code so far. -/
theorem levels_instruction_after {opcode : Opcode} {operands : List Nat} {start before depth : Nat}
    {code : List Instruction}
    (hcode : Leveled strict start before code (depth + Instruction.takes ⟨opcode, operands⟩))
    (hlength : operands.length = opcode.widths.length)
    (hleads : Instruction.leadsOn ⟨opcode, operands⟩)
    (htarget : Instruction.target? ⟨opcode, operands⟩ = none) :
    Levels strict (do return code ++ (← instruction opcode operands)) draft fun code ↦
      Leveled strict start before code (depth + Instruction.leaves ⟨opcode, operands⟩) := by
  refine (levels_instruction hlength).bind ?_
  rintro _ _ ⟨rfl, hfits⟩
  exact .pure (.append hcode (.plain _ _ hfits hleads htarget))

theorem levels_addConstant (constant : Label → Value)
    (h : ∀ label other routine, constant label = .routine other routine →
      strict → ∃ draft body, routine.HasBody draft body) :
    Levels strict (addConstant constant) draft fun _ ↦ True :=
  ⟨⟨.refl _, fun hstrict hpool ↦ hpool.push fun _ _ heq ↦ h _ _ _ heq hstrict⟩, trivial⟩

theorem levels_define (name : String) :
    Levels strict (define name) draft fun symbol ↦
      symbol.place = .global ∨ symbol.place = .localSlot := by
  refine ⟨⟨Scopes.define_grown draft.scopes name, fun _ ↦ id⟩, ?_⟩
  change (if draft.scopes.outer.isEmpty then Symbol.Place.global else .localSlot) = _ ∨
    (if draft.scopes.outer.isEmpty then Symbol.Place.global else .localSlot) = _
  split
  · exact .inl rfl
  · exact .inr rfl

theorem levels_resolve (name : String) : Levels strict (resolve name) draft fun _ ↦ True := by
  unfold Levels Ends resolve
  cases h : draft.scopes.resolve name with
  | none => exact fun _ ↦ id
  | some found => exact ⟨⟨Scopes.grown_resolveFrom h, fun _ ↦ id⟩, trivial⟩

theorem levels_load (symbol : Symbol) (start depth : Nat) :
    Levels strict (load symbol) draft fun code ↦ Leveled strict start depth code (depth + 1) := by
  unfold load
  cases symbol.place
  all_goals
    refine (levels_instruction rfl).mono ?_
    rintro _ ⟨rfl, hfits⟩
    exact .plain start depth hfits rfl rfl

theorem levels_loadAll (symbols : List Symbol) (start depth : Nat) :
    Levels strict (loadAll symbols) draft fun code ↦
      Leveled strict start depth code (depth + symbols.length) := by
  induction symbols generalizing start depth draft with
  | nil => exact .pure (.nil start depth)
  | cons symbol rest ih =>
    refine (levels_load symbol start depth).bind fun first _ hfirst ↦ ?_
    refine (ih (start + size first) (depth + 1)).bind fun others _ hothers ↦ .pure ?_
    have hlength : depth + (symbol :: rest).length = depth + 1 + rest.length := by
      rw [List.length_cons, Nat.add_assoc, Nat.add_comm 1]
    rw [hlength]
    exact .append hfirst hothers

theorem definitions_enter (name : Option String) (parameters : List String) (scopes : Scopes) :
    (enter name parameters scopes).current.definitions = parameters.length := by
  have hparameters : ∀ (names : List String) (inner : Scopes),
      (names.foldl (fun scopes name ↦ (scopes.define name).2) inner).current.definitions =
        inner.current.definitions + names.length := by
    intro names
    induction names with
    | nil => exact fun _ ↦ rfl
    | cons first rest ih =>
      intro inner
      rw [List.foldl_cons, ih, List.length_cons, Nat.add_comm rest.length, ← Nat.add_assoc]
      rfl
  unfold enter
  rw [hparameters]
  cases name <;> exact Nat.zero_add _

/-- What is assembled inside a function is the body of its routine. -/
theorem levels_inFunction {name : Option String} {parameters : List String} {body : List Stmt}
    {property : List Instruction → Prop} (hbranched : strict → Stmt.branchedAll body)
    (hbody : ∀ inner, Levels strict (Stmt.assembleAll body .giveBack 0) inner property) :
    Levels strict (inFunction name parameters do
        endBody (Stmt.returns body) (← Stmt.assembleAll body .giveBack 0)) draft
      fun (code, scope) ↦ strict → ∃ inner, Routine.HasBody
        ⟨(encodeAll code).toArray, scope.definitions, parameters.length⟩ inner body := by
  have hinner := hbody { draft with scopes := enter name parameters draft.scopes }
  unfold Levels Ends at hinner ⊢
  unfold inFunction
  cases hassemble : Stmt.assembleAll body .giveBack 0
      { draft with scopes := enter name parameters draft.scopes } with
  | error error after =>
    rw [hassemble] at hinner
    rw [bind_of_error hassemble]
    exact hinner
  | ok code after =>
    rw [hassemble] at hinner
    rw [bind_of_ok hassemble, endBody_eq]
    have hgrown := hinner.1.scopes
    refine ⟨⟨hgrown.leave.2, hinner.1.pool⟩, fun hstrict ↦
      ⟨_, hbranched hstrict, ?_, code, after, hassemble, by simp⟩⟩
    have hparameters := hgrown.current.definitions
    rwa [definitions_enter] at hparameters

end Assembly

/-! ### Programs -/

/-- How many operands there are behind statements, if there are so many before them. -/
def Stmt.depthAfter (stmts : List Stmt) (ending : Ending) (depth : Nat) : Nat :=
  if ending = .keep ∧ Stmt.returns stmts then depth + 1 else depth

section Programs

open Assembly

variable {draft : Draft}

namespace Part

/-- All blocks of branches in the part end with an expression or a `return`. -/
def Branched : Part → Prop
  | expr tree => tree.branched
  | stmt tree _ => tree.branched
  | stmts trees _ => Stmt.branchedAll trees
  | exprs trees => Expr.branchedAll trees
  | pairs trees => Expr.branchedPairs trees

/-- How many operands there are behind the part, if there are so many before it. -/
def depthAfter : Part → Nat → Nat
  | expr _, depth => depth + 1
  | stmt tree ending, depth => Stmt.depthAfter [tree] ending depth
  | stmts trees ending, depth => Stmt.depthAfter trees ending depth
  | exprs trees, depth => depth + trees.length
  | pairs trees, depth => depth + 2 * trees.length

/-- How many operands there are behind parts in order. -/
def depthBehind (parts : List Part) (depth : Nat) : Nat :=
  parts.foldl (fun depth part ↦ part.depthAfter depth) depth

theorem branched_pieces {part : Part} (h : part.Branched) :
    ∀ piece ∈ part.shape.pieces, piece.Branched := by
  cases part with
  | expr tree =>
    cases tree with
    | branch condition consequence alternative =>
      cases alternative <;> simp_all [shape, Shape.pieces, Branched, Expr.branched]
    | binary op left right =>
      rw [shape]
      split <;> simp_all [Shape.pieces, Branched, Expr.branched]
    | _ => simp_all [shape, Shape.pieces, Branched, Expr.branched]
  | stmt tree ending =>
    cases tree <;> simp_all [shape, Shape.pieces, Branched, Stmt.branched]
  | stmts trees ending =>
    cases trees <;> simp_all [shape, Shape.pieces, Branched, Stmt.branchedAll]
  | exprs trees => cases trees <;> simp_all [shape, Shape.pieces, Branched, Expr.branchedAll]
  | pairs trees => cases trees <;> simp_all [shape, Shape.pieces, Branched, Expr.branchedPairs]

/-- Where nothing is behind its pieces, a part leaves what these leave. -/
theorem depthAfter_sequence {part : Part} {parts : List Part}
    (h : part.shape = .sequence parts .nothing) (depth : Nat) :
    part.depthAfter depth = depthBehind parts depth := by
  cases part with
  | expr tree =>
    cases tree with
    | unary op operand =>
      cases hop : Opcode.ofPrefix? op <;> simp [shape, hop, Closing.ofOpcode] at h
    | binary op left right =>
      rw [shape] at h
      split at h
      · cases h
      · cases hop : Opcode.ofInfix? op <;> simp [hop, Closing.ofOpcode] at h
    | _ => cases h
  | stmt tree ending =>
    cases tree with
    | eval tree =>
      cases ending <;> cases h
      simp [depthAfter, depthBehind, Stmt.depthAfter, Stmt.returns]
    | bind | ret => cases h
  | stmts trees ending =>
    cases trees with
    | nil =>
      cases h
      simp [depthAfter, depthBehind, Stmt.depthAfter, Stmt.returns]
    | cons first rest =>
      cases h
      cases rest with
      | nil => simp [depthAfter, depthBehind, Stmt.depthAfter, Stmt.returns]
      | cons other others =>
        have hreturns :
            Stmt.returns (first :: other :: others) = Stmt.returns (other :: others) := by
          simp only [Stmt.returns, List.getLast?_cons_cons]
        simp [depthAfter, depthBehind, Stmt.depthAfter, hreturns]
  | exprs trees =>
    cases trees <;> cases h
    · rfl
    · simp [depthAfter, depthBehind]
      omega
  | pairs trees =>
    cases trees <;> cases h
    · rfl
    · simp [depthAfter, depthBehind]
      omega

/-- The operation behind the pieces of an expression takes what these leave, and leaves one. -/
theorem depthBehind_expr {tree : Expr} {parts : List Part} {opcode : Opcode} {operands : List Nat}
    (h : (expr tree).shape = .sequence parts (.operation opcode operands)) (depth : Nat) :
    depthBehind parts depth = depth + Instruction.takes ⟨opcode, operands⟩ ∧
      Instruction.leaves ⟨opcode, operands⟩ = 1 := by
  cases tree with
  | bool value => cases value <;> cases h <;> exact ⟨rfl, rfl⟩
  | unary op operand =>
    cases hop : Opcode.ofPrefix? op with
    | none => simp [shape, hop, Closing.ofOpcode] at h
    | some found =>
      simp only [shape, hop, Closing.ofOpcode] at h
      cases h
      rcases Opcode.eq_of_ofPrefix? hop with rfl | rfl <;> exact ⟨rfl, rfl⟩
  | binary op left right =>
    rw [shape] at h
    split at h
    · cases h
      exact ⟨rfl, rfl⟩
    · cases hop : Opcode.ofInfix? op with
      | none => simp [hop, Closing.ofOpcode] at h
      | some found =>
        simp only [hop, Closing.ofOpcode] at h
        cases h
        have hplain : ∀ opcode ∈ [Opcode.add, .sub, .mul, .div, .equal, .notEqual, .greaterThan],
            Instruction.takes ⟨opcode, []⟩ = 2 ∧ Instruction.leaves ⟨opcode, []⟩ = 1 := by decide
        obtain ⟨htakes, hleaves⟩ := hplain opcode (Opcode.mem_of_ofInfix? hop)
        exact ⟨by rw [htakes]; rfl, hleaves⟩
  | call callee arguments =>
    cases h
    have hcount : depth + 1 + arguments.length = depth + (arguments.length + 1) := by omega
    exact ⟨hcount, rfl⟩
  | array | hash | index =>
    cases h
    exact ⟨rfl, rfl⟩
  | int | str | ident | branch | function => cases h

/-- The operation behind the pieces takes operands that these leave, and if the program goes on
behind it, there is what the part leaves. -/
theorem depthAfter_operation {part : Part} {parts : List Part} {opcode : Opcode}
    {operands : List Nat} (h : part.shape = .sequence parts (.operation opcode operands))
    (depth : Nat) : ∃ rest, depthBehind parts depth = rest + Instruction.takes ⟨opcode, operands⟩ ∧
      (Instruction.leadsOn ⟨opcode, operands⟩ →
        part.depthAfter depth = rest + Instruction.leaves ⟨opcode, operands⟩) := by
  cases part with
  | expr tree =>
    obtain ⟨htakes, hleaves⟩ := depthBehind_expr h depth
    exact ⟨depth, htakes, fun _ ↦ by rw [hleaves, depthAfter]⟩
  | stmt tree ending =>
    cases tree with
    | eval tree =>
      cases ending with
      | keep => cases h
      | discard | giveBack =>
        cases h
        exact ⟨depth, rfl, fun _ ↦ by simp [depthAfter, Stmt.depthAfter, Instruction.leaves]⟩
    | bind => cases h
    | ret =>
      cases h
      exact ⟨depth, rfl, by rintro ⟨⟩⟩
  | stmts trees | exprs trees | pairs trees => cases trees <;> cases h

/-- The code of the part keeps to its levels. -/
abbrev KeepsLevels (strict : Prop) (part : Part) : Prop :=
  ∀ start depth draft, Levels strict (part.assemble start) draft fun code ↦
    Leveled strict start depth code (part.depthAfter depth)

theorem levels_inOrder {parts : List Part} (h : ∀ part ∈ parts, part.KeepsLevels strict)
    (start depth : Nat) (draft : Draft) :
    Levels strict (assembleInOrder parts start) draft fun code ↦
      Leveled strict start depth code (depthBehind parts depth) := by
  induction parts generalizing start depth draft with
  | nil => exact .pure (.nil start depth)
  | cons part rest ih =>
    rw [List.forall_mem_cons] at h
    exact (h.1 start depth draft).bind fun _ _ hfirst ↦
      (ih h.2 _ (part.depthAfter depth) _).bind fun _ _ hothers ↦ .pure (.append hfirst hothers)

theorem levels_operation {part : Part} {parts : List Part} {opcode : Opcode} {operands : List Nat}
    (hshape : part.shape = .sequence parts (.operation opcode operands))
    (hopcode : opcode ∈ closings)
    (hlength : operands.length = opcode.widths.length) {start depth : Nat} {code : List Instruction}
    (hcode : Leveled strict start depth code (depthBehind parts depth)) :
    Levels strict (do return code ++ (← instruction opcode operands)) draft fun code ↦
      Leveled strict start depth code (part.depthAfter depth) := by
  have htarget := Instruction.target?_of_closing hopcode operands
  obtain ⟨rest, htakes, hleaves⟩ := depthAfter_operation hshape depth
  rw [htakes] at hcode
  refine (levels_instruction hlength).bind ?_
  rintro _ _ ⟨rfl, hfits⟩
  cases hleads : Instruction.leadsOn ⟨opcode, operands⟩ with
  | true =>
    rw [hleaves hleads]
    exact .pure (.append hcode (.plain _ _ hfits hleads htarget))
  | false => exact .pure (.append hcode (.last _ rest _ hfits hleads htarget))

/-- A block leaves a value, or less. -/
theorem levels_block {block : List Stmt} (hreturns : strict → Stmt.returns block)
    (h : (stmts block .keep).KeepsLevels strict) (start depth : Nat) (draft : Draft) :
    Levels strict ((stmts block .keep).assemble start) draft fun code ↦
      Leveled strict start depth code (depth + 1) := by
  refine (h start depth draft).mono fun _ hcode ↦ hcode.raise ⟨?_, fun hstrict ↦ ?_⟩
  · rw [depthAfter, Stmt.depthAfter]
    split
    · exact Nat.le_refl _
    · exact Nat.le_succ _
  · simp [depthAfter, Stmt.depthAfter, hreturns hstrict]

theorem levels_option {alternative : Option (List Stmt)}
    (hreturns : strict → ∀ block ∈ alternative, Stmt.returns block)
    (h : ∀ block ∈ alternative, (stmts block .keep).KeepsLevels strict) (start depth : Nat)
    (draft : Draft) :
    Levels strict (assembleOption (alternative.map (stmts · .keep)) start) draft fun code ↦
      Leveled strict start depth code (depth + 1) := by
  cases alternative with
  | some block =>
    exact levels_block (fun hstrict ↦ hreturns hstrict block rfl) (h block rfl) start depth draft
  | none =>
    have hnull : Levels strict (instruction .null []) draft _ := levels_instruction rfl
    refine hnull.mono ?_
    rintro _ ⟨rfl, hfits⟩
    exact .plain start depth hfits rfl rfl

/-- Both parts of a branch with the jumps around them. -/
theorem levels_branch {condition : Expr} {consequence : List Stmt}
    {alternative : Option (List Stmt)}
    (hbranched : strict → (expr (.branch condition consequence alternative)).Branched)
    (h : ∀ piece ∈ (expr (.branch condition consequence alternative)).shape.pieces,
      piece.KeepsLevels strict) (start depth : Nat) (draft : Draft) :
    Levels strict ((expr (.branch condition consequence alternative)).shape.assemble start) draft
      fun code ↦ Leveled strict start depth code (depth + 1) := by
  simp only [shape, Shape.pieces, List.forall_mem_cons, Option.mem_toList] at h
  obtain ⟨htest, hfirst, hsecond⟩ := h
  obtain ⟨htaken, hpassed⟩ : (strict → Stmt.returns consequence) ∧
      (strict → ∀ block ∈ alternative, Stmt.returns block) := by
    cases alternative <;> simp_all [Branched, Expr.branched]
  refine (htest start depth draft).bind fun tested _ htested ↦
    (levels_block htaken hfirst _ depth _).bind fun taken _ htaken ↦ ?_
  refine (levels_instruction rfl).bind ?_
  rintro _ _ ⟨rfl, hpass⟩
  refine (levels_option hpassed (fun block hblock ↦ hsecond _ (Option.mem_map_of_mem _ hblock)) _
    depth _).bind
    fun other _ hother ↦ (levels_instruction rfl).bind ?_
  rintro _ _ ⟨rfl, hfinish⟩
  exact .pure (.branch hpass hfinish htested htaken hother)

theorem levels_literal (constant : Label → Value)
    (hconstant : ∀ label other routine, constant label ≠ .routine other routine)
    (start depth : Nat) (draft : Draft) :
    Levels strict ((Shape.literal constant).assemble start) draft fun code ↦
      Leveled strict start depth code (depth + 1) := by
  refine (levels_addConstant constant fun label other routine heq ↦
    absurd heq (hconstant label other routine)).bind fun entry _ _ ↦
      (levels_instruction rfl).mono ?_
  rintro _ ⟨rfl, hfits⟩
  exact .plain start depth hfits rfl rfl

theorem levels_function (parameters : List String) {body : List Stmt} (name : Option String)
    (hbranched : strict → Stmt.branchedAll body)
    (hbody : (stmts body .giveBack).KeepsLevels strict) (start depth : Nat) (draft : Draft) :
    Levels strict ((Shape.function parameters body name).assemble start) draft fun code ↦
      Leveled strict start depth code (depth + 1) := by
  refine (levels_inFunction hbranched (hbody 0 0 ·)).bind ?_
  rintro ⟨code, scope⟩ _ hbody
  refine (levels_loadAll scope.captured start depth).bind fun loads _ hloads ↦ ?_
  refine (levels_addConstant _ ?_).bind fun entry _ _ ↦
    levels_instruction_after hloads rfl rfl rfl
  rintro _ _ _ ⟨⟩ hstrict
  obtain ⟨inner, hinner⟩ := hbody hstrict
  exact ⟨inner, body, hinner⟩

theorem levels (part : Part) (h : strict → part.Branched) : part.KeepsLevels strict := by
  induction part using Part.induction with
  | step part ih =>
    intro start depth draft
    rw [part.assemble_eq]
    have hregular := part.regular
    have hpieces : ∀ piece ∈ part.shape.pieces, piece.KeepsLevels strict := fun piece hmem ↦
      ih piece hmem fun hstrict ↦ branched_pieces (h hstrict) piece hmem
    generalize hshape : part.shape = shape at hregular hpieces
    cases hregular with
    | integer value =>
      obtain ⟨tree, rfl⟩ := exists_expr (.inl ⟨_, hshape⟩)
      exact levels_literal _ (by rintro _ _ _ ⟨⟩) start depth draft
    | string content =>
      obtain ⟨tree, rfl⟩ := exists_expr (.inl ⟨_, hshape⟩)
      exact levels_literal _ (by rintro _ _ _ ⟨⟩) start depth draft
    | ident name =>
      obtain ⟨tree, rfl⟩ := exists_expr (.inr ⟨name, hshape⟩)
      exact (levels_resolve name).bind fun symbol _ _ ↦ levels_load symbol start depth
    | sequence parts =>
      rw [depthAfter_sequence hshape]
      refine (levels_inOrder hpieces start depth draft).bind fun code _ hcode ↦ ?_
      simp only [Closing.assemble, pure_bind, List.append_nil]
      exact .pure hcode
    | failure parts error =>
      exact (levels_inOrder hpieces start depth draft).bind fun _ _ _ ↦ .throw error
    | operation parts hopcode hlength =>
      exact (levels_inOrder hpieces start depth draft).bind fun code _ hcode ↦
        levels_operation hshape hopcode hlength hcode
    | branch condition consequence alternative =>
      obtain ⟨test, first, second, rfl, -, -, -⟩ := eq_of_shape_branch hshape
      rw [← hshape] at hpieces ⊢
      exact levels_branch h hpieces start depth draft
    | function parameters body name =>
      obtain rfl := eq_of_shape_function hshape
      exact levels_function parameters name h (hpieces _ List.mem_cons_self) start depth draft
    | binding name value =>
      obtain ⟨tree, ending, rfl, rfl⟩ := eq_of_shape_binding hshape
      have hafter : (stmt (.bind name tree) ending).depthAfter depth = depth := by
        simp [depthAfter, Stmt.depthAfter, Stmt.returns]
      rw [hafter]
      refine (levels_define name).bind fun symbol _ hplace ↦ ?_
      refine (hpieces _ List.mem_cons_self start depth _).bind fun code _ hcode ↦ ?_
      rcases hplace with hplace | hplace <;> rw [hplace] <;>
        exact levels_instruction_after hcode rfl rfl rfl

end Part

theorem Expr.assemble_levels (tree : Expr) (h : strict → tree.branched) (start depth : Nat)
    (draft : Draft) : Levels strict (tree.assemble start) draft fun code ↦
      Leveled strict start depth code (depth + 1) :=
  (Part.expr tree).levels h start depth draft

theorem Stmt.assembleAll_levels (stmts : List Stmt) (h : strict → Stmt.branchedAll stmts)
    (ending : Ending) (start depth : Nat) (draft : Draft) :
    Levels strict (Stmt.assembleAll stmts ending start) draft fun code ↦
      Leveled strict start depth code (Stmt.depthAfter stmts ending depth) :=
  (Part.stmts stmts ending).levels h start depth draft

/-! ### Places between statements -/

theorem Stmt.branchedAll_append (done rest : List Stmt) :
    Stmt.branchedAll (done ++ rest) = (Stmt.branchedAll done && Stmt.branchedAll rest) := by
  induction done with
  | nil => simp [Stmt.branchedAll]
  | cons stmt others ih => simp [Stmt.branchedAll, ih, Bool.and_assoc]

/-- So many bytes of the code of a body are those of its first statements. -/
def Stmt.Boundary (body : List Stmt) (draft : Draft) (offset : Nat) : Prop :=
  ∃ done rest code middle, body = done ++ rest ∧
    Stmt.assembleAll done .discard 0 draft = .ok code middle ∧ offset = size code

theorem Stmt.boundary_zero (body : List Stmt) (draft : Draft) : Stmt.Boundary body draft 0 :=
  ⟨[], body, [], draft, rfl, rfl, rfl⟩

/-- Where a statement of the body begins or ends, there is a numbering that is zero. -/
theorem Stmt.numbered_of_boundary {body : List Stmt} {ending : Ending} {draft last : Draft}
    {inner tail : List Instruction} {routine : Routine} {offset : Nat}
    (hbranched : Stmt.branchedAll body) (hending : ending ≠ .keep)
    (hassemble : Stmt.assembleAll body ending 0 draft = .ok inner last)
    (htail : Leveled True (size inner) 0 tail 0)
    (hcode : routine.code.toList = encodeAll (inner ++ tail))
    (hoffset : Stmt.Boundary body draft offset) :
    ∃ depth, routine.Numbered depth ∧ depth offset = 0 := by
  have hnone : ∀ stmts depth, Stmt.depthAfter stmts ending depth = depth := by
    simp [Stmt.depthAfter, hending]
  obtain ⟨done, rest, code, middle, rfl, hdone, rfl⟩ := hoffset
  by_cases hrest : rest = []
  · -- the code of the last statement is as long as if its value were discarded
    subst hrest
    rw [List.append_nil] at hbranched hassemble
    have hleveled := ((Stmt.assembleAll_levels done (fun _ : True ↦ hbranched) ending 0 0
      draft).of_ok hassemble).2
    have hsize : size code = size inner := by
      rw [Stmt.assembleAll_eq] at hassemble hdone
      obtain ⟨kept, _, hkept, ⟨⟩⟩ := bind_eq_ok_iff.mp hassemble
      rw [bind_of_ok hkept] at hdone
      cases hdone
      rw [Instruction.size_append, Instruction.size_append]
      split
      · cases ending
        case keep => exact absurd rfl hending
        all_goals rfl
      · rfl
    rw [hnone] at hleveled
    rw [hsize]
    exact Routine.numbered_of_leveled hcode hleveled htail
  · rw [Stmt.branchedAll_append, Bool.and_eq_true] at hbranched
    rw [Stmt.assembleAll_append done hrest, bind_of_ok hdone] at hassemble
    obtain ⟨others, _, hothers, ⟨⟩⟩ := bind_eq_ok_iff.mp hassemble
    have hfirst := ((Stmt.assembleAll_levels done (fun _ : True ↦ hbranched.1) .discard 0 0
      draft).of_ok hdone).2
    have hsecond := ((Stmt.assembleAll_levels rest (fun _ : True ↦ hbranched.2) ending _ 0
      middle).of_ok hothers).2
    have hbetween : Stmt.depthAfter done .discard 0 = 0 := by simp [Stmt.depthAfter]
    rw [hbetween] at hfirst
    rw [hnone, Nat.zero_add] at hsecond
    rw [List.append_assoc] at hcode
    rw [Instruction.size_append] at htail
    exact Routine.numbered_of_leveled hcode hfirst (hsecond.append htail)

theorem Routine.HasBody.numbered {routine : Routine} {body : List Stmt} {offset : Nat}
    (h : routine.HasBody draft body) (hoffset : Stmt.Boundary body draft offset) :
    ∃ depth, routine.Numbered depth ∧ depth offset = 0 := by
  obtain ⟨inner, last, hassemble, hcode⟩ := h.code
  have htail : Leveled True (size inner) 0 (if Stmt.returns body then [] else [⟨.ret, []⟩]) 0 := by
    split
    · exact .nil _ 0
    · have hfits : Instruction.Fits ⟨.ret, []⟩ := .nil
      exact .last _ 0 0 hfits rfl rfl
  have hending : Ending.giveBack ≠ .keep := by decide
  exact Stmt.numbered_of_boundary h.branched hending hassemble htail hcode hoffset

end Programs

end StackScript
