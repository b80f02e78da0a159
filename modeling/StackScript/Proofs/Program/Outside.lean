import StackScript.Proofs.Bytecode.WellFormed

/-!
What the statements outside of all functions do. Only they give names a new meaning outside of
functions, and only their code can end the program before its end: a name that none of them binds
keeps its meaning, also if they cannot be assembled, and if none of them returns, then no
instruction outside of functions does (`Part.spares`).
-/

set_option autoImplicit false
set_option relaxedAutoImplicit false

namespace StackScript

open Instruction (size encodeAll)

/-! ### Statements outside of functions -/

mutual

/-- The statements in the blocks of an expression, but not those in the bodies of its functions. -/
def Expr.outside : Expr → List Stmt
  | .ident _ | .int _ | .str _ | .bool _ | .function .. => []
  | .unary _ operand => operand.outside
  | .binary _ left right => left.outside ++ right.outside
  | .branch condition consequence (some alternative) =>
    condition.outside ++ Stmt.outsideAll consequence ++ Stmt.outsideAll alternative
  | .branch condition consequence none => condition.outside ++ Stmt.outsideAll consequence
  | .call callee arguments => callee.outside ++ Expr.outsideAll arguments
  | .array elements => Expr.outsideAll elements
  | .hash pairs => Expr.outsidePairs pairs
  | .index collection position => collection.outside ++ position.outside

/-- The statement with those in its blocks. -/
def Stmt.outside : Stmt → List Stmt
  | .bind name value => .bind name value :: value.outside
  | .ret value => .ret value :: value.outside
  | .eval expr => .eval expr :: expr.outside

def Stmt.outsideAll : List Stmt → List Stmt
  | [] => []
  | stmt :: rest => stmt.outside ++ Stmt.outsideAll rest

def Expr.outsideAll : List Expr → List Stmt
  | [] => []
  | expr :: rest => expr.outside ++ Expr.outsideAll rest

def Expr.outsidePairs : List (Expr × Expr) → List Stmt
  | [] => []
  | (key, value) :: rest => key.outside ++ value.outside ++ Expr.outsidePairs rest

end

/-- The statement gives none of the names a new meaning, and does not return if it is to go on. -/
def Stmt.Spares (names : List String) (onward : Prop) : Stmt → Prop
  | .bind name _ => name ∉ names
  | .ret _ => ¬onward
  | .eval _ => True

theorem Stmt.spares_nil (stmt : Stmt) : stmt.Spares [] False := by
  cases stmt with
  | bind => exact List.not_mem_nil
  | ret => exact not_false
  | eval => trivial

/-- Statements spare a name that none of them binds. -/
theorem Stmt.spares_of_not_bound {name : String} {stmts : List Stmt}
    (h : ∀ value, .bind name value ∉ stmts) : ∀ stmt ∈ stmts, stmt.Spares [name] False := by
  intro stmt hmem
  cases stmt with
  | bind bound value =>
    intro hsame
    obtain rfl := List.mem_singleton.mp hsame
    exact h value hmem
  | ret value => exact not_false
  | eval => trivial

/-- Whether the operation goes on in the same function. -/
def Opcode.stays (opcode : Opcode) : Bool :=
  opcode != .returnValue && opcode != .ret

/-! ### Names outside of functions -/

/-- The scope outside of all functions. -/
def Scopes.global (scopes : Scopes) : Scope :=
  scopes.outer.getLastD scopes.current

theorem Scopes.global_of_resolveFrom {name : String} {current : Scope} {outer : List Scope}
    {symbol : Symbol} {after : Scopes}
    (h : Scopes.resolveFrom name current outer = some (symbol, after)) :
    after.global = Scopes.global ⟨current, outer⟩ := by
  induction outer generalizing current symbol after with
  | nil =>
    simp only [resolveFrom] at h
    split at h <;> cases h
    rfl
  | cons around outer ih =>
    simp only [resolveFrom] at h
    split at h
    · cases h
      rfl
    · split at h
      · cases h
      · next found scopes hfound =>
        have hglobal := ih hfound
        split at h <;> cases h <;> simpa only [global, List.getLastD_cons] using hglobal

theorem Scopes.global_enter (name : Option String) (parameters : List String) (scopes : Scopes) :
    (Assembly.enter name parameters scopes).global = scopes.global := by
  rw [global, outer_enter, List.getLastD_cons]
  rfl

/-- Scopes only grow, and none of the names has a new meaning outside of functions. -/
structure Draft.Spared (names : List String) (before after : Draft) : Prop where
  scopes : before.scopes.Grown after.scopes
  kept (name : String) : name ∈ names →
    after.scopes.global.find? name = before.scopes.global.find? name

theorem Draft.Spared.refl (names : List String) (draft : Draft) : Spared names draft draft :=
  ⟨.refl _, fun _ _ ↦ rfl⟩

theorem Draft.Spared.trans {names : List String} {first second third : Draft}
    (h : Spared names first second) (hnext : Spared names second third) :
    Spared names first third :=
  ⟨h.scopes.trans hnext.scopes, fun name hname ↦ (hnext.kept name hname).trans (h.kept name hname)⟩

/-! ### Assemblies -/

namespace Assembly

variable {α β : Type} {names : List String} {top onward : Prop} {draft : Draft}

/-- The assembly spares the names, and what it yields satisfies the property. If it is outside of
all functions, it is at the top. -/
def Spares (names : List String) (top : Prop) (assembly : Assembly α) (draft : Draft)
    (property : α → Prop) : Prop :=
  (draft.scopes.outer = [] → top) →
    Ends assembly draft (fun yielded after ↦ Draft.Spared names draft after ∧ property yielded)
      fun _ after ↦ Draft.Spared names draft after

variable {property : α → Prop} {further : β → Prop}

theorem Spares.bind {assembly : Assembly α} {next : α → Assembly β}
    (h : Spares names top assembly draft property)
    (hnext : ∀ yielded after, property yielded → Spares names top (next yielded) after further) :
    Spares names top (assembly >>= next) draft further := by
  intro htop
  refine Ends.bind (h htop) ?_
  rintro yielded middle ⟨hspared, hproperty⟩
  have houter : middle.scopes.outer = [] → top := htop ∘ hspared.scopes.outer_eq_nil.mp
  refine (hnext yielded middle hproperty houter).mono ?_ fun _ _ hmore ↦ hspared.trans hmore
  rintro _ _ ⟨hmore, hfurther⟩
  exact ⟨hspared.trans hmore, hfurther⟩

theorem Spares.pure {yielded : α} (h : property yielded) :
    Spares names top (Pure.pure yielded) draft property :=
  fun _ ↦ Ends.pure ⟨.refl names draft, h⟩

theorem Spares.throw (error : CompileError) :
    Spares names top (MonadExcept.throw error) draft property :=
  fun _ ↦ Ends.throw (.refl names draft)

/-- Code that does not return, if it is to go on. -/
abbrev Stays (onward : Prop) (code : List Instruction) : Prop :=
  onward → ∀ instruction ∈ code, instruction.opcode.stays

theorem Stays.append {first second : List Instruction} (h : Stays onward first)
    (hsecond : Stays onward second) : Stays onward (first ++ second) := by
  intro honward instruction hmem
  exact (List.mem_append.mp hmem).elim (h honward instruction) (hsecond honward instruction)

theorem stays_nil : Stays onward [] :=
  fun _ _ hmem ↦ absurd hmem List.not_mem_nil

theorem spares_instruction {opcode : Opcode} {operands : List Nat}
    (h : onward → opcode.stays) :
    Spares names top (instruction opcode operands) draft (Stays onward) := by
  intro _
  unfold Ends instruction
  split
  · next heq =>
    split at heq <;> cases heq
    refine ⟨.refl names _, fun honward _ hmem ↦ ?_⟩
    rw [List.mem_singleton.mp hmem]
    exact h honward
  · next heq =>
    split at heq <;> cases heq
    exact .refl names _

/-- An instruction behind the code so far. -/
theorem spares_instruction_after {opcode : Opcode} {operands : List Nat} {code : List Instruction}
    (hcode : Stays onward code) (h : onward → opcode.stays) :
    Spares names top (do return code ++ (← instruction opcode operands)) draft (Stays onward) :=
  (spares_instruction h).bind fun _ _ hlast ↦ .pure (hcode.append hlast)

theorem spares_addConstant (constant : Label → Value) :
    Spares names top (addConstant constant) draft fun _ ↦ True :=
  fun _ ↦ ⟨⟨.refl _, fun _ _ ↦ rfl⟩, trivial⟩

theorem spares_define {name : String} (h : top → name ∉ names) :
    Spares names top (define name) draft fun _ ↦ True := by
  intro htop
  refine ⟨⟨Scopes.define_grown draft.scopes name, fun other hother ↦ ?_⟩, trivial⟩
  obtain ⟨constants, ⟨current, outer⟩⟩ := draft
  cases outer with
  | nil =>
    refine (Scope.find?_bind current _ other).trans (if_neg ?_)
    rintro rfl
    exact h (htop rfl) hother
  | cons around outer => rfl

theorem spares_resolve (name : String) : Spares names top (resolve name) draft fun _ ↦ True := by
  intro _
  unfold Ends resolve
  cases h : draft.scopes.resolve name with
  | none => exact .refl names draft
  | some found =>
    refine ⟨⟨Scopes.grown_resolveFrom h, fun other _ ↦ ?_⟩, trivial⟩
    exact congrArg (Scope.find? · other) (Scopes.global_of_resolveFrom h)

theorem spares_load (symbol : Symbol) :
    Spares names top (load symbol) draft (Stays onward) := by
  unfold load
  split <;> exact spares_instruction fun _ ↦ rfl

theorem spares_loadAll (symbols : List Symbol) :
    Spares names top (loadAll symbols) draft (Stays onward) := by
  induction symbols generalizing draft with
  | nil => exact .pure stays_nil
  | cons symbol rest ih =>
    exact (spares_load symbol).bind fun _ _ hfirst ↦ ih.bind fun _ _ hothers ↦
      .pure (hfirst.append hothers)

/-- Leaving a function again. -/
theorem spared_leave {name : Option String} {parameters : List String} {constants : Array Value}
    {after : Draft}
    (h : Draft.Spared names ⟨constants, enter name parameters draft.scopes⟩ after) :
    Draft.Spared names draft { after with scopes := after.scopes.leave?.getD {} } := by
  obtain ⟨hleave, hleft⟩ := h.scopes.leave
  refine ⟨hleft, fun other hother ↦ ?_⟩
  have hglobal : (after.scopes.leave?.getD {}).global = after.scopes.global := by
    rw [Scopes.global, Scopes.global, hleave, List.getLastD_cons]
  have hsame := h.kept other hother
  rw [Scopes.global_enter] at hsame
  rw [← hsame, ← hglobal]

/-- Inside a function nothing is at the top. -/
theorem spares_inFunction {name : Option String} {parameters : List String}
    {body : Assembly (List Instruction)}
    (hbody : ∀ draft, Spares names False body draft fun _ ↦ True) :
    Spares names top (inFunction name parameters body) draft fun _ ↦ True := by
  intro _
  have hinner := hbody { draft with scopes := enter name parameters draft.scopes } (by
    intro houter
    dsimp only at houter
    rw [Scopes.outer_enter] at houter
    cases houter)
  unfold Ends at hinner ⊢
  unfold inFunction
  cases hassemble : body { draft with scopes := enter name parameters draft.scopes } with
  | error error after =>
    rw [hassemble] at hinner
    exact spared_leave hinner
  | ok code after =>
    rw [hassemble] at hinner
    exact ⟨spared_leave hinner.1, trivial⟩

end Assembly

/-! ### Programs -/

open Assembly

variable {names : List String} {onward : Prop}

namespace Part

/-- The statements outside of functions that there are in a part. -/
def outside : Part → List Stmt
  | expr tree => tree.outside
  | stmt tree _ => tree.outside
  | stmts trees _ => Stmt.outsideAll trees
  | exprs trees => Expr.outsideAll trees
  | pairs trees => Expr.outsidePairs trees

/-- What happens to the value of a last expression statement. -/
def ending? : Part → Option Ending
  | stmt _ ending | stmts _ ending => some ending
  | expr _ | exprs _ | pairs _ => none

/-- The statements of the part spare the names, and the value of the last one is not given back if
they are to go on. -/
structure Spares (names : List String) (onward : Prop) (part : Part) : Prop where
  outside : ∀ stmt ∈ part.outside, stmt.Spares names onward
  ending : onward → part.ending? ≠ some .giveBack

/-- What is in the parts that a part is put together of is in the part, and only the body of a
function has a value given back that the part does not give back. -/
theorem outside_pieces (part : Part)
    (hfunction : ∀ parameters body name, part ≠ expr (.function parameters body name)) :
    ∀ piece ∈ part.shape.pieces, (∀ stmt ∈ piece.outside, stmt ∈ part.outside) ∧
      (piece.ending? = some .giveBack → part.ending? = some .giveBack) := by
  cases part with
  | expr tree =>
    cases tree with
    | function parameters body name => exact absurd rfl (hfunction parameters body name)
    | branch condition consequence alternative =>
      cases alternative <;>
        simp +contextual [shape, Shape.pieces, outside, ending?, Expr.outside]
    | binary op left right =>
      rw [shape]
      split <;> simp +contextual [Shape.pieces, outside, ending?, Expr.outside]
    | _ => simp +contextual [shape, Shape.pieces, outside, ending?, Expr.outside]
  | stmt tree ending =>
    cases tree <;> simp +contextual [shape, Shape.pieces, outside, ending?, Stmt.outside]
  | stmts trees ending =>
    cases trees with
    | nil => simp [shape, Shape.pieces]
    | cons first rest =>
      cases rest <;> simp +contextual [shape, Shape.pieces, outside, ending?, Stmt.outsideAll]
  | exprs trees =>
    cases trees <;> simp +contextual [shape, Shape.pieces, outside, ending?, Expr.outsideAll]
  | pairs trees =>
    cases trees <;> simp +contextual [shape, Shape.pieces, outside, ending?, Expr.outsidePairs]

section Spares

variable {part : Part}

theorem Spares.pieces (h : part.Spares names onward)
    (hfunction : ∀ parameters body name, part ≠ expr (.function parameters body name)) :
    ∀ piece ∈ part.shape.pieces, piece.Spares names onward := by
  intro piece hpiece
  obtain ⟨hsubset, hending⟩ := part.outside_pieces hfunction piece hpiece
  exact ⟨fun stmt hmem ↦ h.outside stmt (hsubset stmt hmem),
    fun honward hback ↦ h.ending honward (hending hback)⟩

/-- The operation behind the pieces goes on in the same function. -/
theorem Spares.closing (h : part.Spares names onward) {parts : List Part} {opcode : Opcode}
    {operands : List Nat} (hshape : part.shape = .sequence parts (.operation opcode operands)) :
    onward → opcode.stays := by
  intro honward
  obtain ⟨tree, rfl, rfl⟩ | ⟨tree, rfl, rfl⟩ | ⟨tree, ending, rfl, rfl⟩ | ⟨tree, rfl, _, hreturn⟩ :=
    operation_of_shape hshape
  · rfl
  · exact absurd rfl (h.ending honward)
  · exact absurd honward (h.outside _ List.mem_cons_self)
  · have hclosing : opcode ∈ closings := by
      have hregular := (expr tree).regular
      rw [hshape] at hregular
      cases hregular
      assumption
    have hstays : ∀ opcode ∈ closings, opcode ≠ .returnValue → opcode.stays := by decide
    exact hstays opcode hclosing hreturn

theorem Spares.binding (h : part.Spares names onward) {name : String} {value : Part}
    (hshape : part.shape = .binding name value) : name ∉ names := by
  obtain ⟨tree, ending, rfl, -⟩ := eq_of_shape_binding hshape
  exact h.outside _ List.mem_cons_self

/-- The code of the part spares the names if its statements do, where it is at the top. -/
abbrev KeepsNames (names : List String) (onward : Prop) (part : Part) : Prop :=
  ∀ top : Prop, (top → part.Spares names onward) → ∀ start draft,
    Assembly.Spares names top (part.assemble start) draft (Stays (top ∧ onward))

theorem spares_inOrder {parts : List Part} {top : Prop}
    (h : ∀ part ∈ parts, ∀ start draft,
      Assembly.Spares names top (part.assemble start) draft (Stays (top ∧ onward)))
    (start : Nat) (draft : Draft) :
    Assembly.Spares names top (assembleInOrder parts start) draft (Stays (top ∧ onward)) := by
  induction parts generalizing start draft with
  | nil => exact .pure stays_nil
  | cons part rest ih =>
    rw [List.forall_mem_cons] at h
    exact (h.1 start draft).bind fun _ _ hfirst ↦ (ih h.2 _ _).bind fun _ _ hothers ↦
      .pure (hfirst.append hothers)

theorem spares_option {part? : Option Part} {top : Prop}
    (h : ∀ part ∈ part?, ∀ start draft,
      Assembly.Spares names top (part.assemble start) draft (Stays (top ∧ onward)))
    (start : Nat) (draft : Draft) :
    Assembly.Spares names top (assembleOption part? start) draft (Stays (top ∧ onward)) := by
  cases part? with
  | some part => exact h part rfl start draft
  | none =>
    change Assembly.Spares names top (instruction .null []) draft _
    exact spares_instruction fun _ ↦ rfl

/-- Inside a function nothing is at the top. -/
theorem spares_function (parameters : List String) {body : List Stmt} (name : Option String)
    {top : Prop} (hbody : (stmts body .giveBack).KeepsNames names onward) (start : Nat)
    (draft : Draft) :
    Assembly.Spares names top ((Shape.function parameters body name).assemble start) draft
      (Stays (top ∧ onward)) := by
  have hinner : ∀ draft, Assembly.Spares names False
      (do endBody (Stmt.returns body) (← Stmt.assembleAll body .giveBack 0)) draft
      fun _ ↦ True := by
    intro draft
    refine (hbody False False.elim 0 draft).bind fun code _ _ ↦ ?_
    unfold endBody
    split
    · exact .pure trivial
    · exact (spares_instruction False.elim).bind fun _ _ _ ↦ .pure trivial
  refine (spares_inFunction hinner).bind ?_
  rintro ⟨code, scope⟩ _ _
  have hloads : ∀ draft,
      Assembly.Spares names top (loadAll scope.captured) draft (Stays (top ∧ onward)) :=
    fun _ ↦ spares_loadAll scope.captured
  refine (hloads _).bind fun loads _ hloads ↦ ?_
  exact (spares_addConstant _).bind fun _ _ _ ↦ spares_instruction_after hloads fun _ ↦ rfl

theorem spares (part : Part) : part.KeepsNames names onward := by
  induction part using Part.induction with
  | step part ih =>
    intro top h start draft
    rw [part.assemble_eq]
    have hregular := part.regular
    generalize hshape : part.shape = shape at hregular
    rw [hshape] at ih
    have hpieces : (∀ parameters body name, shape ≠ .function parameters body name) →
        ∀ piece ∈ shape.pieces, ∀ start draft,
          Assembly.Spares names top (piece.assemble start) draft (Stays (top ∧ onward)) := by
      intro hfunction piece hmem
      refine ih piece hmem top fun htop ↦ (h htop).pieces ?_ piece (hshape ▸ hmem)
      rintro parameters body name rfl
      exact hfunction parameters body name hshape.symm
    cases hregular with
    | integer value =>
      exact (spares_addConstant _).bind fun _ _ _ ↦ spares_instruction fun _ ↦ rfl
    | string content =>
      exact (spares_addConstant _).bind fun _ _ _ ↦ spares_instruction fun _ ↦ rfl
    | ident name => exact (spares_resolve name).bind fun symbol _ _ ↦ spares_load symbol
    | sequence parts =>
      refine (spares_inOrder (hpieces (by rintro _ _ _ ⟨⟩)) start draft).bind fun code _ hcode ↦ ?_
      simp only [Closing.assemble, pure_bind, List.append_nil]
      exact .pure hcode
    | failure parts error =>
      exact (spares_inOrder (hpieces (by rintro _ _ _ ⟨⟩)) start draft).bind
        fun _ _ _ ↦ .throw error
    | operation parts =>
      refine (spares_inOrder (hpieces (by rintro _ _ _ ⟨⟩)) start draft).bind fun code _ hcode ↦ ?_
      exact spares_instruction_after hcode fun htop ↦ (h htop.1).closing hshape htop.2
    | branch condition consequence alternative =>
      have hparts := hpieces (by rintro _ _ _ ⟨⟩)
      simp only [Shape.pieces, List.forall_mem_cons, Option.mem_toList] at hparts
      obtain ⟨htest, hfirst, hsecond⟩ := hparts
      refine (htest start draft).bind fun _ _ htest ↦ (hfirst _ _).bind fun _ _ hfirst ↦ ?_
      refine (spares_instruction fun _ : top ∧ onward ↦ rfl).bind fun _ _ hpass ↦ ?_
      refine (spares_option hsecond _ _).bind fun _ _ hsecond ↦ ?_
      refine (spares_instruction fun _ : top ∧ onward ↦ rfl).bind fun _ _ hfinish ↦ .pure ?_
      exact (((htest.append hpass).append hfirst).append hfinish).append hsecond
    | function parameters body name =>
      exact spares_function parameters name (ih _ List.mem_cons_self) start draft
    | binding name value =>
      refine (spares_define fun htop ↦ (h htop).binding hshape).bind fun symbol _ _ ↦ ?_
      have hvalue := hpieces (by rintro _ _ _ ⟨⟩) value List.mem_cons_self
      refine (hvalue start _).bind fun code _ hcode ↦ ?_
      dsimp only
      split <;> exact spares_instruction_after hcode fun _ ↦ rfl

end Spares

end Part

theorem Stmt.assembleAll_spares (stmts : List Stmt) (top : Prop)
    (h : top → ∀ stmt ∈ Stmt.outsideAll stmts, stmt.Spares names onward) (ending : Ending)
    (hending : top ∧ onward → ending ≠ .giveBack) (start : Nat) (draft : Draft) :
    Assembly.Spares names top (Stmt.assembleAll stmts ending start) draft
      (Stays (top ∧ onward)) :=
  (Part.stmts stmts ending).spares top (fun htop ↦ ⟨h htop, fun honward hback ↦
    hending ⟨htop, honward⟩ (Option.some.inj hback)⟩) start draft

end StackScript
