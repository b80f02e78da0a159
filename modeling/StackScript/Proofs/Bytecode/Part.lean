import StackScript.Bytecode.Assemble
import StackScript.Proofs.StateMonad

/-!
How code is put together. An expression, a statement or a list of them is a part, and each part is
assembled in one of six ways, from smaller parts: the entry of a literal, the symbol of a name,
parts in order with at most one instruction behind them, a branch, a function, or the binding of a
name (`Part.shape`). That this is how it is assembled is one equation (`Part.assemble_eq`), and
`Part.induction` is the induction that goes with it. What holds of all assembled code is shown with
these two, by one case for each of the six ways, instead of one for each constructor of the syntax.
-/

set_option autoImplicit false
set_option relaxedAutoImplicit false

namespace StackScript

open Instruction (size encodeAll)

theorem Opcode.eq_of_ofPrefix? {op : String} {opcode : Opcode} (h : ofPrefix? op = some opcode) :
    opcode = .bang ∨ opcode = .minus := by
  unfold ofPrefix? at h
  split at h <;> cases h
  · exact .inl rfl
  · exact .inr rfl

theorem Opcode.mem_of_ofInfix? {op : String} {opcode : Opcode} (h : ofInfix? op = some opcode) :
    opcode ∈ [.add, .sub, .mul, .div, .equal, .notEqual, .greaterThan] := by
  unfold ofInfix? at h
  split at h <;> cases h <;> decide

/-- What is assembled as one. -/
inductive Part where
  | expr (tree : Expr)
  | stmt (tree : Stmt) (ending : Ending)
  | stmts (trees : List Stmt) (ending : Ending)
  | exprs (trees : List Expr)
  | pairs (trees : List (Expr × Expr))

namespace Part

def assemble : Part → Nat → Assembly (List Instruction)
  | expr tree => tree.assemble
  | stmt tree ending => tree.assemble ending
  | stmts trees ending => Stmt.assembleAll trees ending
  | exprs trees => Expr.assembleAll trees
  | pairs trees => Expr.assemblePairs trees

/-- What stands behind the code of parts in order. -/
inductive Closing where
  | nothing
  | operation (opcode : Opcode) (operands : List Nat)
  /-- An operator that there is none of. -/
  | failure (error : CompileError)

/-- The operation of an operator, if there is one. -/
def Closing.ofOpcode (error : CompileError) : Option Opcode → Closing
  | some opcode => operation opcode []
  | none => failure error

def Closing.ofEnding : Ending → Closing
  | .discard => operation .pop []
  | .keep => nothing
  | .giveBack => operation .returnValue []

/-- How the code of a part is put together. -/
inductive Shape where
  /-- A constant of its own, which is loaded. -/
  | literal (constant : Label → Value)
  | ident (name : String)
  | sequence (parts : List Part) (closing : Closing)
  /-- Without an alternative, null is in its place. -/
  | branch (condition consequence : Part) (alternative : Option Part)
  | function (parameters : List String) (body : List Stmt) (name : Option String)
  | binding (name : String) (value : Part)

def shape : Part → Shape
  | expr (.int value) => .literal fun _ ↦ .integer value
  | expr (.str content) => .literal (.string · content)
  | expr (.bool value) => .sequence [] (.operation (if value then .true else .false) [])
  | expr (.ident name) => .ident name
  | expr (.unary op operand) =>
    .sequence [expr operand] (.ofOpcode (.unknownPrefixOperator op) (Opcode.ofPrefix? op))
  | expr (.binary op left right) =>
    if op = "<" then .sequence [expr right, expr left] (.operation .greaterThan [])
    else .sequence [expr left, expr right]
      (.ofOpcode (.unknownInfixOperator op) (Opcode.ofInfix? op))
  | expr (.branch condition consequence alternative) =>
    .branch (expr condition) (stmts consequence .keep) (alternative.map (stmts · .keep))
  | expr (.function parameters body name) => .function parameters body name
  | expr (.call callee arguments) =>
    .sequence [expr callee, exprs arguments] (.operation .call [arguments.length])
  | expr (.array elements) => .sequence [exprs elements] (.operation .array [elements.length])
  | expr (.hash entries) => .sequence [pairs entries] (.operation .hash [2 * entries.length])
  | expr (.index collection position) =>
    .sequence [expr collection, expr position] (.operation .index [])
  | stmt (.eval tree) ending => .sequence [expr tree] (.ofEnding ending)
  | stmt (.bind name value) _ => .binding name (expr value)
  | stmt (.ret value) _ => .sequence [expr value] (.operation .returnValue [])
  | stmts [] _ | exprs [] | pairs [] => .sequence [] .nothing
  | stmts (first :: rest) ending =>
    .sequence [stmt first (if rest.isEmpty then ending else .discard), stmts rest ending] .nothing
  | exprs (first :: rest) => .sequence [expr first, exprs rest] .nothing
  | pairs ((key, value) :: rest) => .sequence [expr key, expr value, pairs rest] .nothing

/-- The parts that a part is put together of, the body of a function among them. -/
def Shape.pieces : Shape → List Part
  | literal _ | ident _ => []
  | sequence parts _ => parts
  | branch condition consequence alternative => condition :: consequence :: alternative.toList
  | function _ body _ => [stmts body .giveBack]
  | binding _ value => [value]

/-! ### Instructions behind parts -/

/-- The operations that stand behind parts in order, or for themselves. -/
def closings : List Opcode :=
  [.true, .false, .bang, .minus, .add, .sub, .mul, .div, .equal, .notEqual, .greaterThan, .call,
    .array, .hash, .index, .pop, .returnValue]

/-- What the shapes of parts have in common: a literal is an integer or a string, and an instruction
behind parts is one of the `closings`, with as many operands as it takes. -/
inductive Shape.Regular : Shape → Prop
  | integer (value : Int64) : Regular (.literal fun _ ↦ .integer value)
  | string (content : String) : Regular (.literal (.string · content))
  | ident (name : String) : Regular (.ident name)
  | operation (parts : List Part) {opcode : Opcode} {operands : List Nat}
    (hopcode : opcode ∈ closings) (hlength : operands.length = opcode.widths.length) :
    Regular (.sequence parts (.operation opcode operands))
  | sequence (parts : List Part) : Regular (.sequence parts .nothing)
  | failure (parts : List Part) (error : CompileError) : Regular (.sequence parts (.failure error))
  | branch (condition consequence : Part) (alternative : Option Part) :
    Regular (.branch condition consequence alternative)
  | function (parameters : List String) (body : List Stmt) (name : Option String) :
    Regular (.function parameters body name)
  | binding (name : String) (value : Part) : Regular (.binding name value)

theorem regular_ofOpcode (parts : List Part) (error : CompileError) {opcode? : Option Opcode}
    (h : ∀ opcode ∈ opcode?, opcode ∈ closings ∧ opcode.widths = []) :
    (Shape.sequence parts (.ofOpcode error opcode?)).Regular := by
  cases opcode? with
  | none => exact .failure parts error
  | some opcode =>
    obtain ⟨hmem, hwidths⟩ := h opcode rfl
    exact .operation parts hmem (by rw [hwidths]; rfl)

theorem regular (part : Part) : part.shape.Regular := by
  cases part with
  | expr tree =>
    cases tree with
    | int value => exact .integer value
    | str content => exact .string content
    | bool value => cases value <;> exact .operation [] (by decide) rfl
    | ident name => exact .ident name
    | unary op operand =>
      refine regular_ofOpcode _ _ fun opcode hop ↦ ?_
      rcases Opcode.eq_of_ofPrefix? hop with rfl | rfl <;> decide
    | binary op left right =>
      rw [shape]
      split
      · exact .operation _ (by decide) rfl
      · refine regular_ofOpcode _ _ fun opcode hop ↦ ?_
        have hplain : ∀ opcode ∈ [Opcode.add, .sub, .mul, .div, .equal, .notEqual, .greaterThan],
            opcode ∈ closings ∧ opcode.widths = [] := by decide
        exact hplain opcode (Opcode.mem_of_ofInfix? hop)
    | branch condition consequence alternative => exact .branch _ _ _
    | function parameters body name => exact .function parameters body name
    | call | array | hash | index => exact .operation _ (by decide) rfl
  | stmt tree ending =>
    cases tree with
    | eval tree =>
      cases ending
      case keep => exact .sequence _
      all_goals exact .operation _ (by decide) rfl
    | bind name value => exact .binding name _
    | ret value => exact .operation _ (by decide) rfl
  | stmts trees => cases trees <;> exact .sequence _
  | exprs trees => cases trees <;> exact .sequence _
  | pairs trees => cases trees <;> exact .sequence _

/-! ### Parts of a shape -/

theorem Closing.operation_of_ofOpcode {error : CompileError} {opcode? : Option Opcode}
    {opcode : Opcode} {operands : List Nat}
    (h : ofOpcode error opcode? = operation opcode operands) : opcode? = some opcode := by
  cases opcode? with
  | none => cases h
  | some found =>
    cases h
    rfl

/-- Behind the code of an expression statement its value is discarded or given back, behind that of
a `return` it is given back, and nothing else is behind any of the other parts. -/
theorem operation_of_shape {part : Part} {parts : List Part} {opcode : Opcode} {operands : List Nat}
    (h : part.shape = .sequence parts (.operation opcode operands)) :
    (∃ tree, part = stmt (.eval tree) .discard ∧ opcode = .pop) ∨
      (∃ tree, part = stmt (.eval tree) .giveBack ∧ opcode = .returnValue) ∨
      (∃ tree ending, part = stmt (.ret tree) ending ∧ opcode = .returnValue) ∨
      ∃ tree, part = expr tree ∧ opcode ≠ .pop ∧ opcode ≠ .returnValue := by
  cases part with
  | expr tree =>
    refine .inr (.inr (.inr ⟨tree, rfl, ?_⟩))
    cases tree with
    | bool value => cases value <;> cases h <;> decide
    | unary op operand =>
      have hop := Closing.operation_of_ofOpcode (Shape.sequence.inj h).2
      rcases Opcode.eq_of_ofPrefix? hop with rfl | rfl <;> decide
    | binary op left right =>
      rw [shape] at h
      split at h
      · cases h
        decide
      · have hop := Closing.operation_of_ofOpcode (Shape.sequence.inj h).2
        have hplain : ∀ opcode ∈ [Opcode.add, .sub, .mul, .div, .equal, .notEqual, .greaterThan],
            opcode ≠ .pop ∧ opcode ≠ .returnValue := by decide
        exact hplain opcode (Opcode.mem_of_ofInfix? hop)
    | call | array | hash | index =>
      cases h
      decide
    | int | str | ident | branch | function => cases h
  | stmt tree ending =>
    cases tree with
    | eval tree =>
      cases ending with
      | discard =>
        cases h
        exact .inl ⟨tree, rfl, rfl⟩
      | keep => cases h
      | giveBack =>
        cases h
        exact .inr (.inl ⟨tree, rfl, rfl⟩)
    | bind name value => cases h
    | ret value =>
      cases h
      exact .inr (.inr (.inl ⟨value, ending, rfl, rfl⟩))
  | stmts trees | exprs trees | pairs trees => cases trees <;> cases h

theorem exists_expr {part : Part} (h : (∃ constant, part.shape = .literal constant) ∨
    ∃ name, part.shape = .ident name) : ∃ tree, part = expr tree := by
  cases part with
  | expr tree => exact ⟨tree, rfl⟩
  | stmt tree ending =>
    obtain ⟨_, h⟩ | ⟨_, h⟩ := h <;> cases tree <;> cases h
  | stmts trees | exprs trees | pairs trees =>
    obtain ⟨_, h⟩ | ⟨_, h⟩ := h <;> cases trees <;> cases h

theorem eq_of_shape_function {part : Part} {parameters : List String} {body : List Stmt}
    {name : Option String} (h : part.shape = .function parameters body name) :
    part = expr (.function parameters body name) := by
  cases part with
  | expr tree =>
    cases tree with
    | function parameters body name =>
      cases h
      rfl
    | binary op left right =>
      rw [shape] at h
      split at h <;> cases h
    | _ => cases h
  | stmt tree ending => cases tree <;> cases h
  | stmts trees | exprs trees | pairs trees => cases trees <;> cases h

theorem eq_of_shape_binding {part value : Part} {name : String}
    (h : part.shape = .binding name value) :
    ∃ tree ending, part = stmt (.bind name tree) ending ∧ value = expr tree := by
  cases part with
  | expr tree =>
    cases tree with
    | binary op left right =>
      rw [shape] at h
      split at h <;> cases h
    | _ => cases h
  | stmt tree ending =>
    cases tree with
    | bind name tree =>
      cases h
      exact ⟨tree, ending, rfl, rfl⟩
    | ret | eval => cases h
  | stmts trees | exprs trees | pairs trees => cases trees <;> cases h

theorem eq_of_shape_branch {part condition consequence : Part} {alternative : Option Part}
    (h : part.shape = .branch condition consequence alternative) :
    ∃ test first second, part = expr (.branch test first second) ∧ condition = expr test ∧
      consequence = stmts first .keep ∧ alternative = second.map (stmts · .keep) := by
  cases part with
  | expr tree =>
    cases tree with
    | branch test first second =>
      cases h
      exact ⟨test, first, second, rfl, rfl, rfl, rfl⟩
    | binary op left right =>
      rw [shape] at h
      split at h <;> cases h
    | _ => cases h
  | stmt tree ending => cases tree <;> cases h
  | stmts trees | exprs trees | pairs trees => cases trees <;> cases h

/-! ### Assembling -/

open Assembly

def Closing.assemble : Closing → Assembly (List Instruction)
  | nothing => pure []
  | operation opcode operands => instruction opcode operands
  | failure error => throw error

/-- The code of parts, each behind the one before it. -/
def assembleInOrder : List Part → Nat → Assembly (List Instruction)
  | [], _ => pure []
  | part :: rest, start => do
    let first ← part.assemble start
    let others ← assembleInOrder rest (start + size first)
    return first ++ others

/-- The code of a part, or null if there is none. -/
def assembleOption : Option Part → Nat → Assembly (List Instruction)
  | some part, start => part.assemble start
  | none, _ => instruction .null []

def Shape.assemble : Shape → Nat → Assembly (List Instruction)
  | .literal constant, _ => do instruction .constant [← addConstant constant]
  | .ident name, _ => do load (← resolve name)
  | .sequence parts closing, start => do
    let code ← assembleInOrder parts start
    return code ++ (← closing.assemble)
  | .branch condition consequence alternative, start => do
    let test ← condition.assemble start
    let first ← consequence.assemble (start + size test + 3)
    let otherwise := start + size test + 3 + size first + 3
    let pass ← instruction .jumpNotTruthy [otherwise]
    let second ← assembleOption alternative otherwise
    let finish ← instruction .jump [otherwise + size second]
    return test ++ pass ++ first ++ finish ++ second
  | .function parameters body name, _ => do
    let (code, scope) ← inFunction name parameters do
      endBody (Stmt.returns body) (← Stmt.assembleAll body .giveBack 0)
    let loads ← loadAll scope.captured
    let entry ← addConstant fun label ↦
      .routine label ⟨(encodeAll code).toArray, scope.definitions, parameters.length⟩
    return loads ++ (← instruction .closure [entry, scope.captured.length])
  | .binding name value, start => do
    let symbol ← define name
    let code ← value.assemble start
    let opcode := if symbol.place = .global then .setGlobal else .setLocal
    return code ++ (← instruction opcode [symbol.index])

@[simp] theorem assembleInOrder_single (part : Part) (start : Nat) :
    assembleInOrder [part] start = part.assemble start := by
  simp [assembleInOrder]

@[simp] theorem assembleInOrder_pair (first second : Part) (start : Nat) :
    assembleInOrder [first, second] start = do
      let code ← first.assemble start
      let others ← second.assemble (start + size code)
      return code ++ others := by
  simp [assembleInOrder]

theorem Closing.assemble_ofEnding (ending : Ending) :
    (Closing.ofEnding ending).assemble = pure ending.instructions := by
  cases ending <;> rfl

theorem Closing.assemble_ofOpcode (error : CompileError) (opcode? : Option Opcode) :
    (Closing.ofOpcode error opcode?).assemble =
      match opcode? with
      | some opcode => instruction opcode []
      | none => throw error := by
  cases opcode? <;> rfl

/-- Each part is assembled as its shape says. -/
theorem assemble_eq (part : Part) (start : Nat) :
    part.assemble start = part.shape.assemble start := by
  cases part with
  | expr tree =>
    cases tree with
    | unary op operand =>
      cases hop : Opcode.ofPrefix? op <;>
        simp [-bind_pure_comp, assemble, Expr.assemble, shape, Shape.assemble,
          Closing.assemble_ofOpcode, hop]
    | binary op left right =>
      rw [assemble, Expr.assemble, shape]
      split
      · simp [-bind_pure_comp, Shape.assemble, Closing.assemble, assemble]
      · cases Opcode.ofInfix? op <;>
          simp [-bind_pure_comp, Shape.assemble, Closing.assemble_ofOpcode, assemble]
    | branch condition consequence alternative =>
      cases alternative <;>
        simp [-bind_pure_comp, assemble, Expr.assemble, shape, Shape.assemble, assembleOption]
    | int | str | bool | ident | function | call | array | hash | index =>
      simp [-bind_pure_comp, assemble, Expr.assemble, shape, Shape.assemble, assembleInOrder,
        Closing.assemble]
  | stmt tree ending =>
    cases tree with
    | eval =>
      simp [-bind_pure_comp, assemble, Stmt.assemble, shape, Shape.assemble,
        Closing.assemble_ofEnding]
    | bind | ret =>
      simp [-bind_pure_comp, assemble, Stmt.assemble, shape, Shape.assemble, Closing.assemble]
  | stmts trees ending =>
    cases trees <;>
      simp [-bind_pure_comp, assemble, Stmt.assembleAll, shape, Shape.assemble, assembleInOrder,
        Closing.assemble]
  | exprs trees =>
    cases trees <;>
      simp [-bind_pure_comp, assemble, Expr.assembleAll, shape, Shape.assemble, assembleInOrder,
        Closing.assemble]
  | pairs trees =>
    cases trees <;>
      simp [-bind_pure_comp, assemble, Expr.assemblePairs, shape, Shape.assemble, assembleInOrder,
        Closing.assemble]

/-! ### Induction -/

/-- How much syntax there is in a part. -/
noncomputable def weight : Part → Nat
  | expr tree => sizeOf tree
  | stmt tree _ => sizeOf tree
  | stmts trees _ => sizeOf trees
  | exprs trees => sizeOf trees
  | pairs trees => sizeOf trees

theorem weight_lt_of_mem_pieces {part piece : Part} (h : piece ∈ part.shape.pieces) :
    piece.weight < part.weight := by
  cases part with
  | expr tree =>
    cases tree with
    | int | str | bool | ident => cases h
    | unary | array | hash | function =>
      obtain rfl := List.mem_singleton.mp h
      simp only [weight, Expr.unary.sizeOf_spec, Expr.array.sizeOf_spec, Expr.hash.sizeOf_spec,
        Expr.function.sizeOf_spec]
      omega
    | binary op left right =>
      rw [shape] at h
      split at h
      all_goals
        simp only [Shape.pieces, List.mem_cons, List.not_mem_nil, or_false] at h
        rcases h with rfl | rfl <;> simp only [weight, Expr.binary.sizeOf_spec] <;> omega
    | branch condition consequence alternative =>
      cases alternative
      all_goals
        simp only [shape, Shape.pieces, Option.map, Option.toList, List.mem_cons, List.not_mem_nil,
          or_false] at h
        rcases h with rfl | rfl | rfl <;> simp [weight] <;> omega
    | call | index =>
      simp only [shape, Shape.pieces, List.mem_cons, List.not_mem_nil, or_false] at h
      rcases h with rfl | rfl <;> simp [weight] <;> omega
  | stmt tree ending =>
    cases tree
    all_goals
      obtain rfl := List.mem_singleton.mp h
      simp only [weight, Stmt.eval.sizeOf_spec, Stmt.bind.sizeOf_spec, Stmt.ret.sizeOf_spec]
      omega
  | stmts trees ending =>
    cases trees with
    | nil => cases h
    | cons first rest =>
      simp only [shape, Shape.pieces, List.mem_cons, List.not_mem_nil, or_false] at h
      rcases h with rfl | rfl <;> simp [weight] <;> omega
  | exprs trees =>
    cases trees with
    | nil => cases h
    | cons first rest =>
      simp only [shape, Shape.pieces, List.mem_cons, List.not_mem_nil, or_false] at h
      rcases h with rfl | rfl <;> simp [weight] <;> omega
  | pairs trees =>
    cases trees with
    | nil => cases h
    | cons first rest =>
      obtain ⟨key, value⟩ := first
      simp only [shape, Shape.pieces, List.mem_cons, List.not_mem_nil, or_false] at h
      rcases h with rfl | rfl | rfl <;> simp [weight] <;> omega

/-- What holds of each part if it holds of the parts that it is put together of, holds of all. -/
theorem induction {motive : Part → Prop}
    (step : ∀ part : Part, (∀ piece ∈ part.shape.pieces, motive piece) → motive part)
    (part : Part) : motive part :=
  step part fun piece _ ↦ induction step piece
termination_by part.weight
decreasing_by exact weight_lt_of_mem_pieces ‹_›

end Part

end StackScript
