import Mathlib.Logic.Equiv.Fintype
import StackScript.Bytecode.Generate
import StackScript.Program.Rename
import StackScript.Proofs.StateMonad

/-!
Code hangs on names only in so far as they are equal or not. Under an injective map of names, each
step of code generation does the same to the renamed names in scope (`Build.Commutes`), so a whole
program is compiled to the same code and constants, or refused for the same reason
(`Program.generate_rename`). The map needs to be injective only on the names that are there.
-/

set_option autoImplicit false
set_option relaxedAutoImplicit false

open Function (Injective)

namespace StackScript

variable {rename : String → String}

/-! ### Names in scopes -/

namespace Scope

theorem find?_rename (hinjective : Injective rename) (scope : Scope) (name : String) :
    (scope.rename rename).find? (rename name) = (scope.find? name).map (Symbol.rename rename) := by
  simp only [find?, Scope.rename, List.find?_map]
  congr 2
  funext symbol
  simp [Symbol.rename, hinjective.eq_iff]

theorem bind_rename (hinjective : Injective rename) (scope : Scope) (symbol : Symbol) :
    (scope.rename rename).bind (symbol.rename rename) = (scope.bind symbol).rename rename := by
  have hothers : (scope.bindings.map (Symbol.rename rename)).filter
      (fun other ↦ other.name ≠ rename symbol.name) =
      (scope.bindings.filter fun other ↦ other.name ≠ symbol.name).map (Symbol.rename rename) := by
    rw [List.filter_map]
    congr 2
    funext other
    simp [Symbol.rename, hinjective.eq_iff]
  exact congrArg (fun others : List Symbol ↦
    { scope.rename rename with bindings := symbol.rename rename :: others }) hothers

theorem define_rename (hinjective : Injective rename) (scope : Scope) (name : String)
    (place : Symbol.Place) :
    (scope.rename rename).define (rename name) place =
      ((scope.define name place).1.rename rename, (scope.define name place).2.rename rename) := by
  have hbind := bind_rename hinjective scope ⟨name, place, scope.definitions⟩
  exact congrArg (fun bound : Scope ↦ (Symbol.rename rename ⟨name, place, scope.definitions⟩,
    { bound with definitions := scope.definitions + 1 })) hbind

theorem capture_rename (hinjective : Injective rename) (scope : Scope) (outside : Symbol) :
    (scope.rename rename).capture (outside.rename rename) =
      ((scope.capture outside).1.rename rename, (scope.capture outside).2.rename rename) := by
  have hbind := bind_rename hinjective scope ⟨outside.name, .free, scope.captured.length⟩
  simp only [capture, Scope.rename, Symbol.rename, List.length_map, List.map_append,
    List.map_cons, List.map_nil] at hbind ⊢
  rw [hbind]

end Scope

namespace Scopes

theorem resolveFrom_rename (hinjective : Injective rename) (name : String) (current : Scope)
    (outer : List Scope) :
    resolveFrom (rename name) (current.rename rename) (outer.map (Scope.rename rename)) =
      (resolveFrom name current outer).map fun (symbol, scopes) ↦
        (symbol.rename rename, scopes.rename rename) := by
  induction outer generalizing current with
  | nil =>
    simp only [List.map_nil, resolveFrom, Scope.find?_rename hinjective]
    cases current.find? name <;> rfl
  | cons around outer ih =>
    simp only [List.map_cons, resolveFrom, Scope.find?_rename hinjective, ih]
    cases current.find? name with
    | some symbol => rfl
    | none =>
      cases resolveFrom name around outer with
      | none => rfl
      | some found =>
        obtain ⟨symbol, scopes⟩ := found
        have hshared : (symbol.rename rename).isShared = symbol.isShared := rfl
        simp only [Option.map_none, Option.map_some, hshared, Scope.capture_rename hinjective]
        split <;> rfl

theorem resolve_rename (hinjective : Injective rename) (scopes : Scopes) (name : String) :
    (scopes.rename rename).resolve (rename name) =
      (scopes.resolve name).map fun (symbol, after) ↦
        (symbol.rename rename, after.rename rename) :=
  resolveFrom_rename hinjective name scopes.current scopes.outer

theorem define_rename (hinjective : Injective rename) (scopes : Scopes) (name : String) :
    (scopes.rename rename).define (rename name) =
      ((scopes.define name).1.rename rename, (scopes.define name).2.rename rename) := by
  simp only [define, Scopes.rename, List.isEmpty_map, Scope.define_rename hinjective]

theorem defineFunction_rename (hinjective : Injective rename) (scopes : Scopes) (name : String) :
    ((scopes.rename rename).defineFunction (rename name)).2 =
      (scopes.defineFunction name).2.rename rename := by
  have hbind := Scope.bind_rename hinjective scopes.current ⟨name, .function, 0⟩
  simp only [defineFunction, Scopes.rename, ← hbind, Symbol.rename]

theorem defineBuiltin_rename (hinjective : Injective rename) (scopes : Scopes) (index : Nat)
    (name : String) :
    ((scopes.rename rename).defineBuiltin index (rename name)).2 =
      (scopes.defineBuiltin index name).2.rename rename := by
  have hbind := Scope.bind_rename hinjective scopes.current ⟨name, .builtin, index⟩
  simp only [defineBuiltin, Scopes.rename, ← hbind, Symbol.rename]

theorem bindBuiltins_rename (hinjective : Injective rename)
    (hbuiltin : ∀ builtin : Builtin, rename builtin.name = builtin.name) (scopes : Scopes) :
    Builder.bindBuiltins (scopes.rename rename) = (Builder.bindBuiltins scopes).rename rename := by
  refine List.foldl_hom (Scopes.rename rename) fun scopes builtin ↦ ?_
  rw [← defineBuiltin_rename hinjective, hbuiltin]

end Scopes

/-! ### Steps of code generation -/

/-- On renamed names, the second action does what the first one does. -/
def Build.Commutes {α β : Type} (rename : String → String) (x : Build α) (onResult : α → β)
    (y : Build β) : Prop :=
  ∀ builder : Builder, y (builder.rename rename) =
    match x builder with
    | .ok result after => .ok (onResult result) (after.rename rename)
    | .error error after => .error (error.rename rename) (after.rename rename)

namespace Build

variable {α β γ δ : Type} {x : Build α} {y : Build β} {onResult : α → β} {onNext : γ → δ}

theorem Commutes.bind {next : α → Build γ} {other : β → Build δ}
    (h : Commutes rename x onResult y)
    (hnext : ∀ result, Commutes rename (next result) onNext (other (onResult result))) :
    Commutes rename (x >>= next) onNext (y >>= other) := by
  intro builder
  have hfirst := h builder
  cases hx : x builder with
  | ok result after =>
    rw [hx] at hfirst
    rw [bind_of_ok hfirst, bind_of_ok hx]
    exact hnext result after
  | error error after =>
    rw [hx] at hfirst
    rw [bind_of_error hfirst, bind_of_error hx]

theorem Commutes.pure (result : α) :
    Commutes rename (Pure.pure result) onResult (Pure.pure (onResult result)) :=
  fun _ ↦ rfl

theorem Commutes.throw {error : CompileError} (h : error.rename rename = error) :
    Commutes rename (MonadExcept.throw error) onResult (MonadExcept.throw error) := by
  intro builder
  simp only [throw_apply, h]

theorem commutes_addConstant (constant : Label → Value) :
    Commutes rename (addConstant constant) id (addConstant constant) :=
  fun _ ↦ rfl

theorem commutes_emit (opcode : Opcode) (operands : List Nat) :
    Commutes rename (emit opcode operands) id (emit opcode operands) := by
  intro builder
  simp only [emit]
  cases Instruction.oversized? opcode.widths operands <;> rfl

theorem commutes_patchJump (position : Nat) (opcode : Opcode) :
    Commutes rename (patchJump position opcode) id (patchJump position opcode) := by
  intro builder
  simp only [patchJump, Builder.rename]
  cases Instruction.oversized? opcode.widths [builder.buffer.code.size] <;> rfl

theorem commutes_keepValue : Commutes rename keepValue id keepValue := by
  intro builder
  have hbuffer : (builder.rename rename).buffer = builder.buffer := rfl
  by_cases hends : builder.buffer.endsWith .pop
  · simp only [keepValue, hbuffer, hends, if_true]
    rfl
  · simp only [keepValue, hbuffer, hends]
    rfl

theorem commutes_modify {change : Builder → Builder}
    (h : ∀ builder : Builder, change (builder.rename rename) = (change builder).rename rename) :
    Commutes rename (modify change) id (modify change) :=
  fun builder ↦ congrArg (EStateM.Result.ok ()) (h builder)

theorem commutes_endBody : Commutes rename endBody id endBody := by
  refine (commutes_modify fun builder ↦ ?_).bind fun _ builder ↦ ?_
  · have hbuffer : (builder.rename rename).buffer = builder.buffer := rfl
    rw [hbuffer]
    split <;> rfl
  · have hbuffer : (builder.rename rename).buffer = builder.buffer := rfl
    have hget : ∀ builder : Builder, (get : Build Builder) builder = .ok builder builder :=
      fun _ ↦ rfl
    rw [bind_of_ok (hget _), bind_of_ok (hget _), hbuffer]
    split
    · have hret : Commutes rename (emit .ret [] >>= fun _ ↦ Pure.pure ()) id
          (emit .ret [] >>= fun _ ↦ Pure.pure ()) := (commutes_emit .ret []).bind fun _ ↦ .pure ()
      exact hret builder
    · rfl

theorem commutes_resolve (hinjective : Injective rename) (name : String) :
    Commutes rename (resolve name) (Symbol.rename rename) (resolve (rename name)) := by
  intro builder
  simp only [resolve, Builder.rename, Scopes.resolve_rename hinjective]
  cases builder.scopes.resolve name <;> rfl

theorem commutes_define (hinjective : Injective rename) (name : String) :
    Commutes rename (define name) (Symbol.rename rename) (define (rename name)) := by
  intro builder
  simp only [define, Builder.rename, Scopes.define_rename hinjective]

theorem commutes_defineFunction (hinjective : Injective rename) (name : String) :
    Commutes rename (defineFunction name) id (defineFunction (rename name)) := by
  intro builder
  simp only [defineFunction, Builder.rename, Scopes.defineFunction_rename hinjective, id_eq]

theorem commutes_defineAll (hinjective : Injective rename) (names : List String) :
    Commutes rename (defineAll names) id (defineAll (names.map rename)) := by
  induction names with
  | nil => exact .pure ()
  | cons name rest ih => exact (commutes_define hinjective name).bind fun _ ↦ ih

theorem commutes_load (symbol : Symbol) :
    Commutes rename (load symbol) id (load (symbol.rename rename)) := by
  obtain ⟨name, place, index⟩ := symbol
  cases place <;> exact (commutes_emit _ _).bind fun _ ↦ .pure ()

theorem commutes_loadAll (symbols : List Symbol) :
    Commutes rename (loadAll symbols) id (loadAll (symbols.map (Symbol.rename rename))) := by
  induction symbols with
  | nil => exact .pure ()
  | cons symbol rest ih => exact (commutes_load symbol).bind fun _ ↦ ih

/-- The end of a function, also of one that failed. -/
theorem leave_rename (builder : Builder) :
    (builder.rename rename).leave =
      ((builder.leave.1.1, builder.leave.1.2.rename rename), builder.leave.2.rename rename) := by
  obtain ⟨constants, ⟨current, outer⟩, buffer, suspended⟩ := builder
  cases outer <;> rfl

theorem commutes_inFunction {body other : Build Unit} (h : Commutes rename body id other) :
    Commutes rename (inFunction body)
      (fun (code, scope) ↦ (code, scope.rename rename)) (inFunction other) := by
  intro builder
  have henter : (builder.rename rename).enter = builder.enter.rename rename := rfl
  have hbody := h builder.enter
  cases hinner : body builder.enter with
  | ok result after =>
    rw [hinner] at hbody
    simp only [inFunction, henter, hbody, hinner, leave_rename]
  | error error after =>
    rw [hinner] at hbody
    simp only [inFunction, henter, hbody, hinner, leave_rename]

end Build

/-! ### Programs -/

open Build

theorem Expr.length_renameAll (exprs : List Expr) :
    (Expr.renameAll rename exprs).length = exprs.length := by
  induction exprs with
  | nil => rw [Expr.renameAll]
  | cons expr rest ih => rw [Expr.renameAll, List.length_cons, ih, List.length_cons]

theorem Expr.length_renamePairs (pairs : List (Expr × Expr)) :
    (Expr.renamePairs rename pairs).length = pairs.length := by
  induction pairs with
  | nil => rw [Expr.renamePairs]
  | cons pair rest ih => rw [Expr.renamePairs, List.length_cons, ih, List.length_cons]

mutual

theorem Expr.commutes (hinjective : Injective rename) :
    (expr : Expr) → Commutes rename expr.generate id (expr.rename rename).generate
  | .int value => by
    rw [Expr.rename, Expr.generate]
    exact (commutes_addConstant _).bind fun _ ↦ (commutes_emit _ _).bind fun _ ↦ .pure ()
  | .str content => by
    rw [Expr.rename, Expr.generate]
    exact (commutes_addConstant _).bind fun _ ↦ (commutes_emit _ _).bind fun _ ↦ .pure ()
  | .bool value => by
    rw [Expr.rename, Expr.generate]
    exact (commutes_emit _ _).bind fun _ ↦ .pure ()
  | .ident name => by
    rw [Expr.rename, Expr.generate, Expr.generate]
    exact (commutes_resolve hinjective name).bind fun symbol ↦ commutes_load symbol
  | .unary op operand => by
    rw [Expr.rename, Expr.generate, Expr.generate]
    refine (operand.commutes hinjective).bind fun _ ↦ ?_
    cases Opcode.ofPrefix? op with
    | some opcode => exact (commutes_emit _ _).bind fun _ ↦ .pure ()
    | none => exact .throw rfl
  | .binary op left right => by
    rw [Expr.rename, Expr.generate, Expr.generate]
    split
    · exact (right.commutes hinjective).bind fun _ ↦ (left.commutes hinjective).bind fun _ ↦
        (commutes_emit _ _).bind fun _ ↦ .pure ()
    · refine (left.commutes hinjective).bind fun _ ↦ (right.commutes hinjective).bind fun _ ↦ ?_
      cases Opcode.ofInfix? op with
      | some opcode => exact (commutes_emit _ _).bind fun _ ↦ .pure ()
      | none => exact .throw rfl
  | .branch condition consequence none => by
    rw [Expr.rename, Expr.generate, Expr.generate]
    exact (condition.commutes hinjective).bind fun _ ↦ (commutes_emit _ _).bind fun _ ↦
      (Stmt.commutesAll hinjective consequence).bind fun _ ↦ commutes_keepValue.bind fun _ ↦
      (commutes_emit _ _).bind fun _ ↦ (commutes_patchJump _ _).bind fun _ ↦
      (commutes_emit _ _).bind fun _ ↦ commutes_patchJump _ _
  | .branch condition consequence (some alternative) => by
    rw [Expr.rename, Expr.generate, Expr.generate]
    exact (condition.commutes hinjective).bind fun _ ↦ (commutes_emit _ _).bind fun _ ↦
      (Stmt.commutesAll hinjective consequence).bind fun _ ↦ commutes_keepValue.bind fun _ ↦
      (commutes_emit _ _).bind fun _ ↦ (commutes_patchJump _ _).bind fun _ ↦
      (Stmt.commutesAll hinjective alternative).bind fun _ ↦ commutes_keepValue.bind fun _ ↦
      commutes_patchJump _ _
  | .function parameters body name => by
    rw [Expr.rename, Expr.generate, Expr.generate]
    have hbody : Commutes rename
        (do defineAll parameters; Stmt.generateAll body; endBody) id
        (do defineAll (parameters.map rename); Stmt.generateAll (Stmt.renameAll rename body)
            endBody) :=
      (commutes_defineAll hinjective parameters).bind fun _ ↦
        (Stmt.commutesAll hinjective body).bind fun _ ↦ commutes_endBody
    refine (commutes_inFunction ?_).bind fun left ↦ ?_
    · cases name with
      | none => exact (Commutes.pure ()).bind fun _ ↦ hbody
      | some name => exact (commutes_defineFunction hinjective name).bind fun _ ↦ hbody
    · have hcaptured : (left.2.rename rename).captured.length = left.2.captured.length :=
        List.length_map _
      dsimp only
      rw [List.length_map, hcaptured]
      exact (commutes_loadAll _).bind fun _ ↦ (commutes_addConstant _).bind fun _ ↦
        (commutes_emit _ _).bind fun _ ↦ .pure ()
  | .call callee arguments => by
    rw [Expr.rename, Expr.generate, Expr.generate, Expr.length_renameAll]
    exact (callee.commutes hinjective).bind fun _ ↦ (Expr.commutesAll hinjective arguments).bind
      fun _ ↦ (commutes_emit _ _).bind fun _ ↦ .pure ()
  | .array elements => by
    rw [Expr.rename, Expr.generate, Expr.generate, Expr.length_renameAll]
    exact (Expr.commutesAll hinjective elements).bind fun _ ↦ (commutes_emit _ _).bind fun _ ↦
      .pure ()
  | .hash pairs => by
    rw [Expr.rename, Expr.generate, Expr.generate, Expr.length_renamePairs]
    exact (Expr.commutesPairs hinjective pairs).bind fun _ ↦ (commutes_emit _ _).bind fun _ ↦
      .pure ()
  | .index collection position => by
    rw [Expr.rename, Expr.generate, Expr.generate]
    exact (collection.commutes hinjective).bind fun _ ↦ (position.commutes hinjective).bind
      fun _ ↦ (commutes_emit _ _).bind fun _ ↦ .pure ()

theorem Stmt.commutes (hinjective : Injective rename) :
    (stmt : Stmt) → Commutes rename stmt.generate id (stmt.rename rename).generate
  | .eval expr => by
    rw [Stmt.rename, Stmt.generate, Stmt.generate]
    exact (expr.commutes hinjective).bind fun _ ↦ (commutes_emit _ _).bind fun _ ↦ .pure ()
  | .bind name value => by
    rw [Stmt.rename, Stmt.generate, Stmt.generate]
    exact (commutes_define hinjective name).bind fun _ ↦ (value.commutes hinjective).bind fun _ ↦
      (commutes_emit _ _).bind fun _ ↦ .pure ()
  | .ret value => by
    rw [Stmt.rename, Stmt.generate, Stmt.generate]
    exact (value.commutes hinjective).bind fun _ ↦ (commutes_emit _ _).bind fun _ ↦ .pure ()

theorem Stmt.commutesAll (hinjective : Injective rename) :
    (stmts : List Stmt) →
      Commutes rename (Stmt.generateAll stmts) id (Stmt.generateAll (Stmt.renameAll rename stmts))
  | [] => by
    rw [Stmt.renameAll, Stmt.generateAll]
    exact .pure ()
  | stmt :: rest => by
    rw [Stmt.renameAll, Stmt.generateAll, Stmt.generateAll]
    exact (stmt.commutes hinjective).bind fun _ ↦ Stmt.commutesAll hinjective rest

theorem Expr.commutesAll (hinjective : Injective rename) :
    (exprs : List Expr) →
      Commutes rename (Expr.generateAll exprs) id (Expr.generateAll (Expr.renameAll rename exprs))
  | [] => by
    rw [Expr.renameAll, Expr.generateAll]
    exact .pure ()
  | expr :: rest => by
    rw [Expr.renameAll, Expr.generateAll, Expr.generateAll]
    exact (expr.commutes hinjective).bind fun _ ↦ Expr.commutesAll hinjective rest

theorem Expr.commutesPairs (hinjective : Injective rename) :
    (pairs : List (Expr × Expr)) → Commutes rename (Expr.generatePairs pairs) id
      (Expr.generatePairs (Expr.renamePairs rename pairs))
  | [] => by
    rw [Expr.renamePairs, Expr.generatePairs]
    exact .pure ()
  | (key, value) :: rest => by
    rw [Expr.renamePairs, Expr.generatePairs, Expr.generatePairs]
    exact (key.commutes hinjective).bind fun _ ↦ (value.commutes hinjective).bind fun _ ↦
      Expr.commutesPairs hinjective rest

end

/-! ### Maps that are injective on the names of a program -/

mutual

theorem Expr.rename_congr {first second : String → String} :
    (expr : Expr) → (∀ name ∈ expr.mentioned, first name = second name) →
      expr.rename first = expr.rename second
  | .ident name, h => by
    simp only [Expr.rename, h name (by simp [Expr.mentioned])]
  | .int _, _ | .str _, _ | .bool _, _ => by simp only [Expr.rename]
  | .unary _ operand, h => by
    simp only [Expr.mentioned] at h
    simp only [Expr.rename, operand.rename_congr h]
  | .binary _ left right, h => by
    simp only [Expr.mentioned, List.forall_mem_append] at h
    simp only [Expr.rename, left.rename_congr h.1, right.rename_congr h.2]
  | .branch condition consequence none, h => by
    simp only [Expr.mentioned, List.forall_mem_append] at h
    simp only [Expr.rename, condition.rename_congr h.1, Stmt.renameAll_congr consequence h.2]
  | .branch condition consequence (some alternative), h => by
    simp only [Expr.mentioned, List.forall_mem_append] at h
    simp only [Expr.rename, condition.rename_congr h.1.1, Stmt.renameAll_congr consequence h.1.2,
      Stmt.renameAll_congr alternative h.2]
  | .function parameters body name, h => by
    simp only [Expr.mentioned, List.forall_mem_append] at h
    have hname : name.map first = name.map second := by
      cases name with
      | none => rfl
      | some name => simp [h.2 name (by simp)]
    simp only [Expr.rename, List.map_congr_left h.1.1, Stmt.renameAll_congr body h.1.2, hname]
  | .call callee arguments, h => by
    simp only [Expr.mentioned, List.forall_mem_append] at h
    simp only [Expr.rename, callee.rename_congr h.1, Expr.renameAll_congr arguments h.2]
  | .array elements, h => by
    simp only [Expr.mentioned] at h
    simp only [Expr.rename, Expr.renameAll_congr elements h]
  | .hash pairs, h => by
    simp only [Expr.mentioned] at h
    simp only [Expr.rename, Expr.renamePairs_congr pairs h]
  | .index collection position, h => by
    simp only [Expr.mentioned, List.forall_mem_append] at h
    simp only [Expr.rename, collection.rename_congr h.1, position.rename_congr h.2]

theorem Stmt.rename_congr {first second : String → String} :
    (stmt : Stmt) → (∀ name ∈ stmt.mentioned, first name = second name) →
      stmt.rename first = stmt.rename second
  | .bind name value, h => by
    simp only [Stmt.mentioned, List.forall_mem_cons] at h
    simp only [Stmt.rename, h.1, value.rename_congr h.2]
  | .ret value, h => by
    simp only [Stmt.mentioned] at h
    simp only [Stmt.rename, value.rename_congr h]
  | .eval expr, h => by
    simp only [Stmt.mentioned] at h
    simp only [Stmt.rename, expr.rename_congr h]

theorem Stmt.renameAll_congr {first second : String → String} :
    (stmts : List Stmt) → (∀ name ∈ Stmt.mentionedAll stmts, first name = second name) →
      Stmt.renameAll first stmts = Stmt.renameAll second stmts
  | [], _ => by simp only [Stmt.renameAll]
  | stmt :: rest, h => by
    simp only [Stmt.mentionedAll, List.forall_mem_append] at h
    simp only [Stmt.renameAll, stmt.rename_congr h.1, Stmt.renameAll_congr rest h.2]

theorem Expr.renameAll_congr {first second : String → String} :
    (exprs : List Expr) → (∀ name ∈ Expr.mentionedAll exprs, first name = second name) →
      Expr.renameAll first exprs = Expr.renameAll second exprs
  | [], _ => by simp only [Expr.renameAll]
  | expr :: rest, h => by
    simp only [Expr.mentionedAll, List.forall_mem_append] at h
    simp only [Expr.renameAll, expr.rename_congr h.1, Expr.renameAll_congr rest h.2]

theorem Expr.renamePairs_congr {first second : String → String} :
    (pairs : List (Expr × Expr)) → (∀ name ∈ Expr.mentionedPairs pairs, first name = second name) →
      Expr.renamePairs first pairs = Expr.renamePairs second pairs
  | [], _ => by simp only [Expr.renamePairs]
  | (key, value) :: rest, h => by
    simp only [Expr.mentionedPairs, List.forall_mem_append] at h
    simp only [Expr.renamePairs, key.rename_congr h.1.1, value.rename_congr h.1.2,
      Expr.renamePairs_congr rest h.2]

end

namespace Program

theorem rename_congr {first second : String → String} {program : Program}
    (h : ∀ name ∈ program.mentioned, first name = second name) :
    program.rename first = program.rename second :=
  congrArg Program.mk (Stmt.renameAll_congr program.statements h)

theorem new_rename (hinjective : Injective rename)
    (hbuiltin : ∀ builtin : Builtin, rename builtin.name = builtin.name) :
    Builder.new.rename rename = Builder.new := by
  have hscopes := Scopes.bindBuiltins_rename hinjective hbuiltin {}
  exact congrArg (fun scopes ↦ ({ scopes := scopes } : Builder)) hscopes.symm

/-- A program added to a new builder, under a map that is injective on all names. -/
theorem add_rename (hinjective : Injective rename)
    (hbuiltin : ∀ builtin : Builtin, rename builtin.name = builtin.name) (program : Program) :
    Builder.new.add (program.rename rename) =
      ((Builder.new.add program).1.map (CompileError.rename rename),
        (Builder.new.add program).2.rename rename) := by
  have hcommutes := Stmt.commutesAll hinjective program.statements Builder.new
  rw [new_rename hinjective hbuiltin] at hcommutes
  simp only [Builder.add, Program.rename, hcommutes]
  cases Stmt.generateAll program.statements Builder.new <;> rfl

/-- The names of the program and of the provided functions. -/
def known (program : Program) : List String :=
  program.mentioned ++ Builtin.all.map Builtin.name

theorem builtin_mem_known (program : Program) (builtin : Builtin) :
    builtin.name ∈ program.known := by
  refine List.mem_append_right _ (List.mem_map_of_mem ?_)
  cases builtin <;> decide

/-- A map that is injective on some names agrees there with a permutation of all names. -/
theorem exists_perm_of_injOn {names : List String}
    (h : Set.InjOn rename {name | name ∈ names}) :
    ∃ permutation : Equiv.Perm String, ∀ name ∈ names, permutation name = rename name := by
  obtain ⟨permutation, hagrees⟩ := Equiv.Perm.exists_extending_pair
    (fun name : {name // name ∈ names} ↦ name.1) (fun name ↦ rename name.1)
    Subtype.val_injective (Set.injOn_iff_injective.mp h)
  exact ⟨permutation, fun name hname ↦ hagrees ⟨name, hname⟩⟩

/-- A variable that is reported as undefined stands in the program: the exchange with a name that
is not there would change the report, but not the program. -/
theorem mem_known_of_undefined {program : Program} {name : String}
    (h : (Builder.new.add program).1 = some (.undefinedVariable name)) : name ∈ program.known := by
  by_contra habsent
  obtain ⟨fresh, hfresh⟩ := Infinite.exists_notMem_finset (name :: program.known).toFinset
  rw [List.mem_toFinset, List.mem_cons, not_or] at hfresh
  have hkept : ∀ other ∈ program.known, Equiv.swap name fresh other = other := by
    intro other hother
    exact Equiv.swap_apply_of_ne_of_ne (fun heq ↦ habsent (heq ▸ hother))
      (fun heq ↦ hfresh.2 (heq ▸ hother))
  have hsame : program.rename (Equiv.swap name fresh) = program.rename id :=
    rename_congr fun other hother ↦ hkept other (List.mem_append_left _ hother)
  have hswapped := add_rename (Equiv.swap name fresh).injective
    (fun builtin ↦ hkept _ (builtin_mem_known program builtin)) program
  rw [hsame, add_rename Function.injective_id (fun _ ↦ rfl), h] at hswapped
  simp only [Prod.mk.injEq, Option.map_some, Option.some.injEq, CompileError.rename,
    CompileError.undefinedVariable.injEq, Equiv.swap_apply_left, id_eq] at hswapped
  exact hfresh.1 hswapped.1.symm

/-- Spec §4.1, names are only looked up. Assumes: the renaming is injective on the names that the
program knows (`hinjective`) and leaves those of the provided functions as they are (`hbuiltin`).
The renamed program is compiled to the same code and constants, or fails for the same reason, with
the name in it renamed. -/
theorem generate_rename {rename : String → String} (program : Program)
    (hinjective : Set.InjOn rename {name | name ∈ program.known})
    (hbuiltin : ∀ builtin : Builtin, rename builtin.name = builtin.name) :
    (Builder.new.add (program.rename rename)).1 =
        (Builder.new.add program).1.map (CompileError.rename rename) ∧
      (Builder.new.add (program.rename rename)).2.bytecode =
        (Builder.new.add program).2.bytecode := by
  obtain ⟨permutation, hagrees⟩ := exists_perm_of_injOn hinjective
  have hsame : program.rename rename = program.rename permutation :=
    rename_congr fun name hname ↦ (hagrees name (List.mem_append_left _ hname)).symm
  have hadd := add_rename permutation.injective
    (fun builtin ↦ (hagrees _ (builtin_mem_known program builtin)).trans (hbuiltin builtin))
    program
  rw [hsame, hadd]
  refine ⟨?_, rfl⟩
  cases herror : (Builder.new.add program).1 with
  | none => rfl
  | some error =>
    cases error with
    | undefinedVariable name =>
      simp only [Option.map_some, CompileError.rename, hagrees name (mem_known_of_undefined herror)]
    | _ => rfl

/-- A function that captures a variable, uses a global and calls a provided function, with two of
its names exchanged. -/
def nested : Program :=
  ⟨[.bind "a" (.int 5), .eval (.function ["x"] [.eval (.function ["y"]
    [.eval (.call (.ident "len") [.binary "+" (.ident "x") (.ident "a")])] none)] none)]⟩

theorem generate_rename_nested :
    Set.InjOn (Equiv.swap "x" "y") {name | name ∈ nested.known} ∧
    (∀ builtin : Builtin, Equiv.swap "x" "y" builtin.name = builtin.name) ∧
    (Builder.new.add (nested.rename (Equiv.swap "x" "y"))).2.bytecode =
      (Builder.new.add nested).2.bytecode := by
  have hinjective : Set.InjOn (Equiv.swap "x" "y") {name | name ∈ nested.known} :=
    (Equiv.swap "x" "y").injective.injOn
  have hbuiltin : ∀ builtin : Builtin, Equiv.swap "x" "y" builtin.name = builtin.name := by
    intro builtin
    cases builtin <;> decide
  exact ⟨hinjective, hbuiltin, (generate_rename nested hinjective hbuiltin).2⟩

end Program

end StackScript
