import StackScript.Program.Scoping
import StackScript.Proofs.Bytecode.Editing
import StackScript.Proofs.Bytecode.Part
import StackScript.Proofs.Program.Grammar
import StackScript.Proofs.Program.Lookahead
import StackScript.Session

/-!
The front end and the back end agree on the operators. The grammar has no form with an operator that
the code generator does not know (`Grammar.inherited_operable`), and what is read is derived by it.
A token is read as an operator only if it binds, and what binds is a call, an index or an operator,
so no reader gives up at such a token (`Parser.regular_of_statement`). A part whose operators are
known is never refused for the sake of one, wherever its code stands (`Part.accepts`). Main
statement: `Program.operators_agree`.
-/

set_option autoImplicit false
set_option relaxedAutoImplicit false

namespace StackScript

/-! ### Known operators in lists -/

theorem Stmt.operableAll_iff (stmts : List Stmt) :
    Stmt.operableAll stmts ↔ ∀ stmt ∈ stmts, stmt.operable := by
  induction stmts with
  | nil => simp [Stmt.operableAll]
  | cons stmt rest ih => simp [Stmt.operableAll, ih]

theorem Expr.operableAll_iff (exprs : List Expr) :
    Expr.operableAll exprs ↔ ∀ expr ∈ exprs, expr.operable := by
  induction exprs with
  | nil => simp [Expr.operableAll]
  | cons expr rest ih => simp [Expr.operableAll, ih]

theorem Expr.operablePairs_iff (pairs : List (Expr × Expr)) :
    Expr.operablePairs pairs ↔ ∀ pair ∈ pairs, pair.1.operable ∧ pair.2.operable := by
  induction pairs with
  | nil => simp [Expr.operablePairs]
  | cons pair rest ih => simp [Expr.operablePairs, ih]

theorem Expr.operable_named (name : String) (value : Expr) :
    (value.named name).operable = value.operable := by
  unfold Expr.named
  split
  · simp only [Expr.operable]
  · rfl

/-- The code generator knows the operator between two operands. -/
def Opcode.Binary (op : String) : Prop :=
  op = "<" ∨ ∃ opcode, Opcode.ofInfix? op = some opcode

theorem Expr.operable_binary {op : String} {left right : Expr} (hop : Opcode.Binary op)
    (hleft : left.operable) (hright : right.operable) : (Expr.binary op left right).operable := by
  rw [Expr.operable, hleft, hright]
  obtain rfl | ⟨opcode, hopcode⟩ := hop
  · rfl
  · simp [hopcode]

/-- `!` stands before an operand only. -/
theorem Expr.operable_binary_bang (left right : Expr) :
    (Expr.binary "!" left right).operable = false := by
  rw [Expr.operable]
  exact Bool.and_false _

/-! ### What is read -/

theorem Grammar.binary_of_mem {level : Level} {token : Token} {op : String}
    (h : (token, op) ∈ level.operators) : Opcode.Binary op := by
  have hknown : ∀ pair ∈ level.operators, pair.2 = "<" ∨ (Opcode.ofInfix? pair.2).isSome := by
    cases level <;> decide
  exact (hknown _ h).imp_right Option.isSome_iff_exists.mp

/-- What binds as an operator is a call, an index or an operator that the code generator knows. -/
theorem Token.known_of_binds {token : Token} (h : 0 < token.strength.rank) :
    token = .openParen ∨ token = .openBracket ∨
      ∃ op, token.operator? = some op ∧ Opcode.Binary op := by
  obtain hparen | hbracket | ⟨op, hop⟩ := token.binds_cases h
  · exact .inl hparen
  · exact .inr (.inl hbracket)
  · obtain ⟨level, hmem, -, -⟩ := token.exists_level hop h
    exact .inr (.inr ⟨op, hop, Grammar.binary_of_mem hmem⟩)

theorem Grammar.isSome_of_mem_signs {token : Token} {op : String} (h : (token, op) ∈ signs) :
    (Opcode.ofPrefix? op).isSome := by
  have hknown : ∀ pair ∈ signs, (Opcode.ofPrefix? pair.2).isSome := by decide
  exact hknown _ h

/-- The grammar has no form with an operator that the code generator does not know. -/
theorem Grammar.inherited_operable :
    Inherited (fun expr ↦ expr.operable) fun stmt ↦ stmt.operable where
  ident _ := by rw [Expr.operable]
  int _ := by rw [Expr.operable]
  str _ := by rw [Expr.operable]
  bool _ := by rw [Expr.operable]
  unary hop hoperand := by rw [Expr.operable, hoperand, isSome_of_mem_signs hop, Bool.and_self]
  binary hop hleft hright := Expr.operable_binary (binary_of_mem hop) hleft hright
  call hcallee harguments := by
    rw [Expr.operable, hcallee, (Expr.operableAll_iff _).mpr harguments, Bool.and_self]
  index hcollection hposition := by rw [Expr.operable, hcollection, hposition, Bool.and_self]
  branch hcondition hconsequence := by
    rw [Expr.operable, hcondition, (Stmt.operableAll_iff _).mpr hconsequence, Bool.and_self]
  branchElse hcondition hconsequence halternative := by
    rw [Expr.operable, hcondition, (Stmt.operableAll_iff _).mpr hconsequence,
      (Stmt.operableAll_iff _).mpr halternative, Bool.and_self, Bool.and_self]
  function hbody := by rwa [Expr.operable, Stmt.operableAll_iff]
  array helements := by rwa [Expr.operable, Expr.operableAll_iff]
  hash hpairs := by rwa [Expr.operable, Expr.operablePairs_iff]
  bind name _ hvalue := by rwa [Stmt.operable, Expr.operable_named]
  ret hvalue := by rwa [Stmt.operable]
  eval hvalue := by rwa [Stmt.operable]

namespace Parser

/-- The error is not about a token that binds and is no operator. -/
def Regular (error : ParseError) : Prop :=
  ∀ token, error.cause ≠ .noOperator token

theorem operable_of_statement {fuel : Nat} {input after : Input} {stmt : Stmt}
    (h : statement fuel input = .ok stmt after) : stmt.operable := by
  obtain ⟨taken, -, hstmt⟩ := exists_of_statement_ok h
  exact hstmt.inherits Grammar.inherited_operable

/-- A reader that fails stands at the token that the error is about, or behind one that cannot begin
an operand. -/
theorem regular_of_statement {fuel : Nat} {input after : Input} {error : ParseError}
    (h : statement fuel input = .error error after) : Regular error := by
  have hbeside : Beside input input False 0 := ⟨List.prefix_refl _, False.elim⟩
  rw [← input.behind_zero] at h
  obtain ⟨_, _, -, -, -, -, hrefuses, -⟩ :=
    (statement_tracks hbeside fuel 0 (fun _ ↦ trivial) (Nat.zero_le _)).at_error h
  exact hrefuses.ne_noOperator

/-- From statement to statement, over all errors on the way. -/
theorem program_yields (fuel rounds : Nat) (done : List Stmt) (errors : List ParseError)
    (input : Input) (hdone : ∀ stmt ∈ done, stmt.operable)
    (herrors : ∀ error ∈ errors, Regular error) :
    (program fuel rounds done errors input).1.Operable ∧
      ∀ error ∈ (program fuel rounds done errors input).2, Regular error := by
  have hend : ∀ {done : List Stmt} {errors : List ParseError}, (∀ stmt ∈ done, stmt.operable) →
      (∀ error ∈ errors, Regular error) →
      (⟨done.reverse⟩ : Program).Operable ∧ ∀ error ∈ errors.reverse, Regular error := by
    intro done errors hdone herrors
    constructor
    · refine (Stmt.operableAll_iff done.reverse).mpr fun stmt hstmt ↦ ?_
      exact hdone stmt (List.mem_reverse.mp hstmt)
    · exact fun error herror ↦ herrors error (List.mem_reverse.mp herror)
  induction rounds generalizing done errors input with
  | zero => exact hend hdone herrors
  | succ rounds ih =>
    rw [program]
    split
    · exact hend hdone herrors
    · split
      · next stmt after hok =>
        exact ih _ _ _ (List.forall_mem_cons.mpr ⟨operable_of_statement hok, hdone⟩) herrors
      · next error after herror =>
        exact ih _ _ _ hdone (List.forall_mem_cons.mpr ⟨regular_of_statement herror, herrors⟩)

theorem operatorsFrom_of_bang (fuel : Nat) (level : Strength) (left : Expr) {input : Input}
    (h : input.tokens.head? = some .bang) :
    operatorsFrom (fuel + 1) level left input = .ok left input := by
  rw [operatorsFrom, peek_bind, h]
  exact congrFun (if_neg (Nat.not_lt_zero level.rank)) input

end Parser

theorem Program.readTokens_yields (lexemes : List Lexeme) :
    (readTokens lexemes).1.Operable ∧ ∀ error ∈ (readTokens lexemes).2, Parser.Regular error :=
  Parser.program_yields _ _ [] [] _ (List.forall_mem_nil _) (List.forall_mem_nil _)

theorem Program.operable_of_ofSource {source : String} {program : Program}
    (h : ofSource source = .ok program) : program.Operable := by
  unfold ofSource at h
  split at h
  · cases h
  · next lexemes _ =>
    have hread := readTokens_yields lexemes
    unfold ofTokens at h
    split at h
    · next hok =>
      split at hok
      · next hprogram =>
        rw [hprogram] at hread
        cases hok
        cases h
        exact hread.1
      · cases hok
    · cases h

/-! ### What the code generator accepts -/

/-- The code generator does not know some operator. -/
def CompileError.AboutOperator : CompileError → Prop
  | .unknownPrefixOperator _ | .unknownInfixOperator _ => True
  | _ => False

namespace Assembly

/-- The steps never fail for the sake of an operator. -/
def Accepts {α : Type} (steps : Assembly α) : Prop :=
  ∀ draft, Ends steps draft (fun _ _ ↦ True) fun error _ ↦ ¬error.AboutOperator

variable {α β : Type}

theorem Accepts.bind {steps : Assembly α} {next : α → Assembly β} (h : Accepts steps)
    (hnext : ∀ yielded, Accepts (next yielded)) : Accepts (steps >>= next) :=
  fun draft ↦ Ends.bind (h draft) fun yielded after _ ↦ hnext yielded after

theorem Accepts.pure (yielded : α) : Accepts (Pure.pure yielded : Assembly α) :=
  fun _ ↦ trivial

theorem accepts_addConstant (constant : Label → Value) : Accepts (addConstant constant) :=
  fun _ ↦ trivial

theorem accepts_instruction (opcode : Opcode) (operands : List Nat) :
    Accepts (instruction opcode operands) := by
  intro draft
  unfold Ends instruction
  cases Instruction.oversized? opcode.widths operands with
  | none => exact trivial
  | some operand => exact not_false

theorem accepts_define (name : String) : Accepts (define name) :=
  fun _ ↦ trivial

theorem accepts_resolve (name : String) : Accepts (resolve name) := by
  intro draft
  unfold Ends resolve
  cases draft.scopes.resolve name with
  | some found => exact trivial
  | none => exact not_false

theorem accepts_load (symbol : Symbol) : Accepts (load symbol) := by
  unfold load
  cases symbol.place <;> exact accepts_instruction _ _

theorem accepts_loadAll (symbols : List Symbol) : Accepts (loadAll symbols) := by
  induction symbols with
  | nil => exact .pure _
  | cons symbol rest ih => exact (accepts_load symbol).bind fun _ ↦ ih.bind fun _ ↦ .pure _

theorem accepts_endBody (returns : Bool) (code : List Instruction) :
    Accepts (endBody returns code) := by
  cases returns with
  | true => exact .pure code
  | false => exact (accepts_instruction .ret []).bind fun _ ↦ .pure _

theorem accepts_inFunction (name : Option String) (parameters : List String)
    {body : Assembly (List Instruction)} (h : Accepts body) :
    Accepts (inFunction name parameters body) := by
  intro draft
  have hbody := h { draft with scopes := enter name parameters draft.scopes }
  unfold Ends at hbody ⊢
  unfold inFunction
  cases hresult : body { draft with scopes := enter name parameters draft.scopes } with
  | ok code after => exact trivial
  | error error after =>
    rw [hresult] at hbody
    exact hbody

end Assembly

namespace Part

open Assembly

/-- The operators of a part are known. -/
def operable : Part → Bool
  | expr tree => tree.operable
  | stmt tree _ => tree.operable
  | stmts trees _ => Stmt.operableAll trees
  | exprs trees => Expr.operableAll trees
  | pairs trees => Expr.operablePairs trees

def Closing.operable : Closing → Bool
  | nothing | operation _ _ => true
  | failure _ => false

def Shape.operable : Shape → Bool
  | literal _ | ident _ => true
  | sequence parts closing => parts.all Part.operable && closing.operable
  | branch condition consequence alternative =>
    condition.operable && consequence.operable && alternative.all Part.operable
  | function _ body _ => Stmt.operableAll body
  | binding _ value => value.operable

theorem Closing.operable_ofOpcode (error : CompileError) (opcode? : Option Opcode) :
    (ofOpcode error opcode?).operable = opcode?.isSome := by
  cases opcode? <;> rfl

theorem operable_eq (part : Part) : part.operable = part.shape.operable := by
  cases part with
  | expr tree =>
    cases tree with
    | unary op operand =>
      simp [operable, Expr.operable, shape, Shape.operable, Closing.operable_ofOpcode]
    | binary op left right =>
      rw [operable, Expr.operable, shape]
      split
      · next hless => simp [hless, Shape.operable, operable, Closing.operable, Bool.and_comm]
      · next hless =>
        rw [beq_eq_false_iff_ne.mpr hless]
        simp [Shape.operable, operable, Closing.operable_ofOpcode]
    | branch condition consequence alternative =>
      cases alternative <;> simp [operable, Expr.operable, shape, Shape.operable]
    | _ => simp [operable, Expr.operable, shape, Shape.operable, Closing.operable]
  | stmt tree ending =>
    cases tree with
    | eval tree =>
      cases ending <;>
        simp [operable, Stmt.operable, shape, Shape.operable, Closing.ofEnding, Closing.operable]
    | _ => simp [operable, Stmt.operable, shape, Shape.operable, Closing.operable]
  | stmts trees ending =>
    cases trees <;> simp [operable, Stmt.operableAll, shape, Shape.operable, Closing.operable]
  | exprs trees =>
    cases trees <;> simp [operable, Expr.operableAll, shape, Shape.operable, Closing.operable]
  | pairs trees =>
    cases trees <;>
      simp [operable, Expr.operablePairs, shape, Shape.operable, Closing.operable, Bool.and_assoc]

theorem Shape.operable_of_mem_pieces {shape : Shape} {piece : Part} (h : shape.operable)
    (hpiece : piece ∈ shape.pieces) : piece.operable := by
  cases shape with
  | literal | ident => cases hpiece
  | sequence parts closing =>
    rw [Shape.operable, Bool.and_eq_true, List.all_eq_true] at h
    exact h.1 piece hpiece
  | branch condition consequence alternative =>
    simp only [Shape.operable, Bool.and_eq_true, Option.all_eq_true] at h
    simp only [pieces, List.mem_cons, Option.mem_toList] at hpiece
    obtain rfl | rfl | hpiece := hpiece
    · exact h.1.1
    · exact h.1.2
    · exact h.2 piece hpiece
  | function | binding =>
    obtain rfl := List.mem_singleton.mp hpiece
    exact h

theorem accepts_inOrder {parts : List Part}
    (h : ∀ part ∈ parts, ∀ start, Accepts (part.assemble start)) (start : Nat) :
    Accepts (assembleInOrder parts start) := by
  induction parts generalizing start with
  | nil => exact .pure []
  | cons part rest ih =>
    rw [List.forall_mem_cons] at h
    exact (h.1 start).bind fun _ ↦ (ih h.2 _).bind fun _ ↦ .pure _

theorem accepts_option {part? : Option Part}
    (h : ∀ part ∈ part?, ∀ start, Accepts (part.assemble start)) (start : Nat) :
    Accepts (assembleOption part? start) := by
  cases part? with
  | some part => exact h part rfl start
  | none => exact accepts_instruction .null []

theorem accepts (part : Part) (h : part.operable) (start : Nat) :
    Accepts (part.assemble start) := by
  induction part using Part.induction generalizing start with
  | step part ih =>
    rw [part.operable_eq] at h
    rw [part.assemble_eq]
    replace ih := fun piece hpiece ↦ ih piece hpiece (Shape.operable_of_mem_pieces h hpiece)
    generalize part.shape = shape at ih h
    cases shape with
    | literal constant => exact (accepts_addConstant constant).bind fun _ ↦ accepts_instruction _ _
    | ident name => exact (accepts_resolve name).bind accepts_load
    | sequence parts closing =>
      refine (accepts_inOrder ih start).bind fun code ↦ ?_
      cases closing with
      | nothing => exact .pure _
      | operation opcode operands =>
        exact (accepts_instruction opcode operands).bind fun _ ↦ .pure _
      | failure error =>
        rw [Shape.operable, Closing.operable, Bool.and_false] at h
        cases h
    | branch condition consequence alternative =>
      simp only [Shape.pieces, List.forall_mem_cons, Option.mem_toList] at ih
      exact (ih.1 start).bind fun _ ↦ (ih.2.1 _).bind fun _ ↦ (accepts_instruction _ _).bind fun _ ↦
        (accepts_option ih.2.2 _).bind fun _ ↦ (accepts_instruction _ _).bind fun _ ↦ .pure _
    | function parameters body name =>
      have hbody := (ih _ List.mem_cons_self 0).bind fun code ↦
        accepts_endBody (Stmt.returns body) code
      refine (accepts_inFunction name parameters hbody).bind ?_
      rintro ⟨code, scope⟩
      exact (accepts_loadAll scope.captured).bind fun _ ↦ (accepts_addConstant _).bind fun _ ↦
        (accepts_instruction _ _).bind fun _ ↦ .pure _
    | binding name value =>
      exact (accepts_define name).bind fun _ ↦ (ih _ List.mem_cons_self _).bind fun _ ↦
        (accepts_instruction _ _).bind fun _ ↦ .pure _

end Part

theorem Builder.add_accepts (builder : Builder) {program : Program} (h : program.Operable)
    {error : CompileError} (herror : (builder.add program).1 = some error) :
    ¬error.AboutOperator := by
  have haccepts := (Part.stmts program.statements .discard).accepts h builder.buffer.code.size
  have hadd := add_eq_assemble builder program
  split at hadd
  · obtain ⟨buffer, hbuilder, -⟩ := hadd
    rw [hbuilder] at herror
    cases herror
  · next hresult =>
    obtain ⟨buffer, hbuilder⟩ := hadd
    rw [hbuilder] at herror
    cases herror
    exact (haccepts builder.draft).at_error hresult

theorem Session.compile_accepts (session : Session) {program : Program} (h : program.Operable)
    {error : CompileError} (herror : (session.compile program).1 = .error error) :
    ¬error.AboutOperator := by
  refine (Builder.resume session.scopes session.constants).add_accepts h ?_
  unfold compile at herror
  rcases hadd : (Builder.resume session.scopes session.constants).add program with ⟨error?, builder⟩
  rw [hadd] at herror
  cases error? with
  | none => cases herror
  | some first =>
    cases herror
    rfl

/-- Spec §4.2 and §E2, front end and back end agree on the operators. No program that is read from a
text fails to compile for the sake of an operator, from whatever was compiled before and in any
session. In no list of tokens is an error found at a token that binds and is no operator: what binds
tighter than some level is a call, an index or an operator that the code generator knows. And `!`
ends an expression, and stands in no program between two operands. -/
theorem Program.operators_agree :
    (∀ source program, ofSource source = .ok program →
      (∀ (builder : Builder) error, (builder.add program).1 = some error →
        ¬error.AboutOperator) ∧
      ∀ (session : Session) error, (session.compile program).1 = .error error →
        ¬error.AboutOperator) ∧
    (∀ lexemes, ∀ error ∈ (readTokens lexemes).2, ∀ token, error.cause ≠ .noOperator token) ∧
    (∀ (level : Strength) (token : Token), level.rank < token.strength.rank →
      token = .openParen ∨ token = .openBracket ∨
        ∃ op, token.operator? = some op ∧ Opcode.Binary op) ∧
    (∀ fuel level left (input : Parser.Input), input.tokens.head? = some .bang →
      Parser.operatorsFrom (fuel + 1) level left input = .ok left input) ∧
    (∀ lexemes, (readTokens lexemes).1.Operable) ∧
    ∀ left right, (Expr.binary "!" left right).operable = false := by
  refine ⟨fun source program hsource ↦ ?_, fun lexemes ↦ (readTokens_yields lexemes).2,
    fun level token hlevel ↦ Token.known_of_binds (Nat.zero_lt_of_lt hlevel),
    fun fuel level left _ ↦ Parser.operatorsFrom_of_bang fuel level left,
    fun lexemes ↦ (readTokens_yields lexemes).1, Expr.operable_binary_bang⟩
  have hoperable := operable_of_ofSource hsource
  constructor
  · exact fun builder error ↦ builder.add_accepts hoperable
  · exact fun session error ↦ session.compile_accepts hoperable

end StackScript
